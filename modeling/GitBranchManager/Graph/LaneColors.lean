import GitBranchManager.Graph.ColorChoice
import GitBranchManager.Graph.Columns
import GitBranchManager.Graph.OpenEdges

/-! # Neighbouring lines are told apart

A pending edge has the colour of its lane, and the colours of neighbouring lanes in use are a
quarter turn apart; an edge keeps its colour, so what is drawn side by side stays apart.
-/

namespace GitBranchManager

open Library.Waiting LaneAllocator

/-- The edge is drawn from its child's row down to its parent's row; an open edge has no end.
The rows strictly between its ends are among these. -/
def Edge.DrawnOver (e : Edge) (row : Nat) : Prop := e.childRow ≤ row ∧ row < e.parentRow

namespace GraphBuilder

structure Colored (b : GraphBuilder) : Prop where
  spread : b.lanes.Spread
  pending : ∀ item ∈ b.pending, item.2.lane < kMaxLanes → item.2.color = b.lanes.colors item.2.lane
  apart : ∀ e₁ ∈ b.built.edges, ∀ e₂ ∈ b.built.edges, e₂.lane = e₁.lane + 1 → e₂.lane < kMaxLanes →
    ∀ row, e₁.DrawnOver row → e₂.DrawnOver row →
      kMinColorSeparation ≤ colorDistance e₁.color e₂.color

theorem colored_new (options : GraphOptions) : (new options).Colored := by
  refine ⟨?_, fun _ h => absurd h List.not_mem_nil, fun _ h => absurd h List.not_mem_nil⟩
  rw [new]
  dsimp only
  split
  · exact spread_new
  · exact spread_reserved

/-- The lane of a new row is spread from its neighbours, and the lanes in use keep their colours. -/
theorem Colored.occupied {b : GraphBuilder} (h : b.Colored) {oid : ObjectId} {lane : Nat}
    {lanes : LaneAllocator} (hOccupied : Occupied b oid (lane, lanes)) :
    lanes.Spread ∧ ∀ l, b.lanes.inUse l = true → lanes.colors l = b.lanes.colors l := by
  cases hOccupied with
  | trunk =>
    have hSpread : (b.lanes.seed 0 oid).Spread :=
      h.spread.seed oid rfl (fun _ => Or.inl) (fun _ hZero => absurd rfl hZero) (by decide)
    refine ⟨hSpread, fun l _ => ?_⟩
    rcases Decidable.eq_or_ne l 0 with rfl | hZero
    · rw [hSpread.trunk, h.spread.trunk]
    · rw [colors_seed _ (by decide), Function.update_of_ne hZero]
  | tip _ lanes _ _ hAlloc =>
    exact ⟨h.spread.allocated hAlloc oid fun _ _ hZero => absurd rfl hZero,
      fun l hUse => (hAlloc.colors oid hUse).1⟩
  | chosen => exact ⟨h.spread, fun _ _ => rfl⟩

theorem Colored.arrive {b : GraphBuilder} (h : b.Colored) (hColumns : b.Columns none) (hOpen : b.Open)
    (hFits : b.built.rows.length ≤ kRowBoundary) (commit : Commit) (lane : Nat) {lanes : LaneAllocator}
    (hSpread : lanes.Spread) (hKeep : ∀ l, b.lanes.inUse l = true → lanes.colors l = b.lanes.colors l) :
    (b.arrive commit lane lanes).Colored := by
  obtain ⟨used, hLanes, hUsed⟩ := lanes_arrive b commit lane lanes
  have hColors : (b.arrive commit lane lanes).lanes.colors = lanes.colors := by rw [hLanes]
  have hFewer : ∀ l, (b.arrive commit lane lanes).lanes.inUse l = true → lanes.inUse l = true := by
    intro l hl
    exact ((inUse_arrive b commit lane lanes (inUse_lt hl)).mp hl).1
  refine ⟨hSpread.of_inUse hColors hFewer, ?_, ?_⟩
  · intro item hItem hLane
    rw [pending_arrive, mem_discard] at hItem
    rw [hColors, h.pending item hItem.1 hLane, hKeep]
    exact (hColumns.inUse _ hLane).mpr (Or.inl (holders_pos.mpr ⟨item, hItem.1, rfl⟩))
  · -- An edge that ends at the new row was drawn over the rows above it before.
    have hBefore : ∀ e ∈ (b.arrive commit lane lanes).built.edges, ∃ e₀ ∈ b.built.edges,
        e₀.lane = e.lane ∧ e₀.color = e.color ∧ ∀ row, e.DrawnOver row → e₀.DrawnOver row := by
      intro e he
      obtain ⟨i, hi⟩ := List.mem_iff_getElem?.mp he
      obtain ⟨e₀, hEdge, hSame, hLe, -⟩ := hOpen.edge_before hFits hi
      have hChild : e₀.childRow = e.childRow := by rw [hSame]
      refine ⟨e₀, List.mem_of_getElem? hEdge, by rw [hSame], by rw [hSame], fun row hRow => ?_⟩
      exact ⟨hChild ▸ hRow.1, Nat.lt_of_lt_of_le hRow.2 hLe⟩
    intro e₁ he₁ e₂ he₂ hNext hOwn row hRow₁ hRow₂
    obtain ⟨f₁, hf₁, hLane₁, hColor₁, hDrawn₁⟩ := hBefore e₁ he₁
    obtain ⟨f₂, hf₂, hLane₂, hColor₂, hDrawn₂⟩ := hBefore e₂ he₂
    rw [← hColor₁, ← hColor₂]
    exact h.apart f₁ hf₁ f₂ hf₂ (by rw [hLane₁, hLane₂, hNext]) (hLane₂ ▸ hOwn) row
      (hDrawn₁ row hRow₁) (hDrawn₂ row hRow₂)

/-- A new edge starts at the last row, where only open edges are drawn. -/
theorem Colored.connect {b : GraphBuilder} {held : Option Nat} (h : b.Colored)
    (hColumns : b.Columns held) (hOpen : b.Open) (parent : ObjectId) {row : Nat} (childLane : Nat)
    {lane : Nat} {color : UInt8} (kind : EdgeKind) (index : Nat) (first : Bool)
    (hLast : b.built.rows.length ≤ row + 1)
    (hColor : lane < kMaxLanes → color = b.lanes.colors lane ∧ b.lanes.inUse lane = true) :
    (b.connect parent row childLane lane color kind index first).Colored := by
  refine ⟨h.spread, ?_, ?_⟩
  · intro item hItem hLane
    rw [pending_connect, List.mem_append, List.mem_singleton] at hItem
    rcases hItem with hItem | rfl
    · exact h.pending item hItem hLane
    · exact (hColor hLane).1
  · have hBeside : ∀ e ∈ b.built.edges, e.lane < kMaxLanes → ∀ r, row ≤ r → e.DrawnOver r →
        e.color = b.lanes.colors e.lane ∧ b.lanes.inUse e.lane = true := by
      intro e he hLane r hAfter hDrawn
      obtain ⟨i, hi⟩ := List.mem_iff_getElem?.mp he
      rcases hOpen.closed i e hi with ⟨item, hItem, rfl⟩ | hClosed
      · obtain ⟨-, -, hSame, hPaint⟩ := hOpen.edge_eq hItem hi
        rw [hSame] at hLane ⊢
        rw [hPaint]
        exact ⟨h.pending item hItem hLane, (hColumns.inUse _ hLane).mpr
          (Or.inl (holders_pos.mpr ⟨item, hItem, rfl⟩))⟩
      · exact absurd hDrawn.2 (by omega)
    intro e₁ he₁ e₂ he₂ hNext hOwn r hRow₁ hRow₂
    rw [edges_connect, List.mem_append, List.mem_singleton] at he₁ he₂
    have hOwn₁ : e₁.lane < kMaxLanes := by omega
    rcases he₁ with he₁ | rfl <;> rcases he₂ with he₂ | rfl
    · exact h.apart e₁ he₁ e₂ he₂ hNext hOwn r hRow₁ hRow₂
    · obtain ⟨hPaint₁, hUse₁⟩ := hBeside e₁ he₁ hOwn₁ r hRow₂.1 hRow₁
      obtain ⟨hPaint₂, hUse₂⟩ := hColor hOwn
      dsimp only at hNext ⊢
      rw [hPaint₁, hPaint₂, hNext]
      exact h.spread.apart _ (Or.inr hUse₁) (hNext ▸ hUse₂)
    · obtain ⟨hPaint₁, hUse₁⟩ := hColor hOwn₁
      obtain ⟨hPaint₂, hUse₂⟩ := hBeside e₂ he₂ hOwn r hRow₁.1 hRow₂
      dsimp only at hNext ⊢
      rw [hPaint₁, hPaint₂, hNext]
      exact h.spread.apart _ (Or.inr hUse₁) (hNext ▸ hUse₂)
    · dsimp only at hNext
      omega

theorem Colored.connectMerged {b : GraphBuilder} {row lane : Nat} (h : b.Colored)
    (hColumns : b.Columns none) (hOpen : b.Open) (hLast : b.built.rows.length ≤ row + 1)
    (hChild : lane < kMaxLanes → b.lanes.inUse lane = true) (kind : EdgeKind) (parent : ObjectId)
    (index : Nat) :
    (b.connectMerged row lane kind parent index).Colored ∧
      (lane < kMaxLanes → (b.connectMerged row lane kind parent index).lanes.inUse lane = true) := by
  have hRoute := route_routed b lane parent
  rw [GraphBuilder.connectMerged]
  generalize b.route lane parent = routed at hRoute ⊢
  cases hRoute with
  | joined edge hMem =>
    have hUse (hLane : edge.lane < kMaxLanes) : b.lanes.inUse edge.lane = true :=
      (hColumns.inUse _ hLane).mpr (Or.inl (holders_pos.mpr ⟨_, mem_waiting.mp hMem, rfl⟩))
    exact ⟨h.connect hColumns hOpen parent lane kind index false hLast fun hLane =>
      ⟨colorOf_of_lt _ hLane, hUse hLane⟩, hChild⟩
  | opened target lanes _ hAlloc =>
    have hColumns' := hColumns.allocated hAlloc parent
    have hColored : ({ b with lanes := lanes.seed target parent } : GraphBuilder).Colored := by
      refine ⟨h.spread.allocated hAlloc parent fun hFrom hLane _ => hChild (by omega), ?_, h.apart⟩
      intro item hItem hLane
      rw [h.pending item hItem hLane, (hAlloc.colors parent _).1]
      exact (hColumns.inUse _ hLane).mpr (Or.inl (holders_pos.mpr ⟨item, hItem, rfl⟩))
    exact ⟨hColored.connect hColumns' (hOpen.relane _) parent lane kind index false hLast
      fun hLane => ⟨colorOf_of_lt _ hLane, hAlloc.inUse parent hLane⟩,
      fun hLane => (hAlloc.colors parent (hChild hLane)).2⟩

/-- What holds once the first `next` edges of a row are made: from the first on, the row's own
lane is in use. -/
structure Descending (row lane offset parents next : Nat) (b : GraphBuilder) : Prop where
  slotted : Slotted row offset parents next b
  colored : b.Colored
  columns : 0 < next → b.Columns none
  child : 0 < next → lane < kMaxLanes → b.lanes.inUse lane = true

theorem Descending.first {b : GraphBuilder} {row lane offset parents : Nat} {color : UInt8}
    (hSlotted : Slotted row offset parents 0 b) (hColored : b.Colored)
    (hColumns : b.Columns (some lane)) (hPaint : lane < kMaxLanes → color = b.lanes.colors lane)
    (hPos : 0 < parents) (parent : ObjectId) :
    Descending row lane offset parents 1 (b.connectFirst row lane color offset parent) := by
  have hOwn (hLane : lane < kMaxLanes) : b.lanes.inUse lane = true :=
    (hColumns.inUse lane hLane).mpr (Or.inr (Or.inr rfl))
  constructor
  · exact hSlotted.connect hPos parent lane lane color .firstParent true
  · exact hColored.connect hColumns hSlotted.opened parent lane .firstParent offset true
      hSlotted.last.le fun hLane => ⟨hPaint hLane, hOwn hLane⟩
  · exact fun _ => hColumns.connect parent row lane color .firstParent offset true (Or.inl rfl)
  · exact fun _ => hOwn

theorem Descending.merged {b : GraphBuilder} {row lane offset parents next : Nat}
    (h : Descending row lane offset parents next b) (hPos : 0 < next) (hNext : next < parents)
    (kind : EdgeKind) (parent : ObjectId) : Descending row lane offset parents (next + 1)
      (b.connectMerged row lane kind parent (offset + next)) := by
  obtain ⟨hColored, hChild⟩ := h.colored.connectMerged (h.columns hPos) h.slotted.opened
    h.slotted.last.le (h.child hPos) kind parent (offset + next)
  constructor
  · exact (h.slotted.relane _).connect hNext parent lane _ _ kind false
  · exact hColored
  · exact fun _ => (h.columns hPos).connectMerged row lane kind parent _
  · exact fun _ => hChild

theorem Colored.releaseIfEnded {b : GraphBuilder} (h : b.Colored) (lane : Nat) :
    (b.releaseIfEnded lane).Colored := by
  obtain ⟨used, hLanes, -⟩ := lanes_releaseIfEnded b lane
  have hSpread : (b.releaseIfEnded lane).lanes.Spread :=
    h.spread.of_inUse (by rw [hLanes]) fun l hl => ((inUse_releaseIfEnded b lane l).mp hl).1
  rw [releaseIfEnded_eq]
  refine ⟨hSpread, ?_, h.apart⟩
  rw [hLanes]
  exact h.pending

theorem Colored.emit {b : GraphBuilder} (h : b.Colored) (hColumns : b.Columns none) (hOpen : b.Open)
    (hFits : b.built.rows.length ≤ kRowBoundary) {commit : Commit}
    (hNew : commit.oid ∉ b.built.oids) : (b.emit commit).Colored := by
  obtain ⟨lane, lanes, hOccupied, hEmit⟩ := emit_eq b commit
  obtain ⟨hSpread, hKeep⟩ := h.occupied hOccupied
  have hSlotted := hOpen.slotted commit lane lanes
  have hArrive := h.arrive hColumns hOpen hFits commit lane hSpread hKeep
  have hHeld := hColumns.arrive (hColumns.takes hNew hOccupied)
  have hPaint (hLane : lane < kMaxLanes) :
      lanes.colorOf lane = (b.arrive commit lane lanes).lanes.colors lane := by
    obtain ⟨used, hLanes, -⟩ := lanes_arrive b commit lane lanes
    rw [hLanes, colorOf_of_lt _ hLane]
  have hDescend : ((b.arrive commit lane lanes).descend b.built.rows.length lane
      (lanes.colorOf lane) b.built.parentPool.length commit.parents).Colored := by
    suffices hRun : Descending b.built.rows.length lane b.built.parentPool.length
        commit.parents.length commit.parents.length ((b.arrive commit lane lanes).descend
          b.built.rows.length lane (lanes.colorOf lane) b.built.parentPool.length commit.parents) from
      hRun.colored
    refine descend_steps (motive := fun i b' => Descending b.built.rows.length lane
      b.built.parentPool.length commit.parents.length i b') ?_ ?_ ?_
    · intro _
      refine ⟨?_, hArrive.releaseIfEnded lane, fun hPos => absurd hPos (Nat.lt_irrefl 0),
        fun hPos => absurd hPos (Nat.lt_irrefl 0)⟩
      rw [releaseIfEnded_eq]
      exact hSlotted.relane _
    · intro parent hParent
      exact .first hSlotted hArrive hHeld hPaint
        (List.length_pos_of_mem (List.mem_of_mem_head? hParent)) parent
    · intro i b' kind parent hPos _ hParent hb
      exact hb.merged hPos (List.getElem?_eq_some_iff.mp hParent).1 kind parent
  rw [hEmit]
  exact ⟨hDescend.spread, hDescend.pending, hDescend.apart⟩

theorem colored_walk {options : GraphOptions} {commits : List Commit}
    (hNodup : (commits.map Commit.oid).Nodup) : (walk options commits).Colored := by
  have h := walk_induction (motive := fun _ b => b.Columns none ∧ b.Open ∧ b.Colored) options commits
    ⟨columns_new options, open_new options, colored_new options⟩
    (fun _ _ ⟨hColumns, hOpen, hColored⟩ =>
      ⟨hColumns.markTruncated, hOpen.markTruncated,
        ⟨hColored.spread, hColored.pending, hColored.apart⟩⟩)
    fun done commit b hPrefix _ hOids hRows hRoom ⟨hColumns, hOpen, hColored⟩ => by
      have hNew : commit.oid ∉ b.built.oids := hOids ▸ not_mem_done hNodup hPrefix
      have hFits : b.built.rows.length < kRowBoundary := lt_kRowBoundary (hRows ▸ hRoom)
      exact ⟨hColumns.emit hNew, hOpen.emit commit, hColored.emit hColumns hOpen hFits.le hNew⟩
  exact h.2.2

/-- Lines drawn side by side over a row have colours a quarter turn apart. -/
theorem adjacent_lanes_apart (options : GraphOptions) (commits : List Commit)
    (hNodup : (commits.map Commit.oid).Nodup) (s : GraphSnapshot)
    (hs : s = (walk options commits).snapshot ∨ s = (walk options commits).finish.snapshot) :
    ∀ left ∈ s.edges, ∀ right ∈ s.edges, right.lane = left.lane + 1 → right.lane < kOverflowLane →
      ∀ row, left.DrawnOver row → right.DrawnOver row → 3 ≤ colorDistance left.color right.color := by
  rw [edges_shown hs]
  exact (colored_walk hNodup).apart

def octopusCommits : List Commit :=
  [{ oid := .replicate 4, parents := [.replicate 3, .replicate 2, .replicate 1] },
    { oid := .replicate 3 }, { oid := .replicate 2 }, { oid := .replicate 1 }]

theorem adjacent_lanes_apart_octopus : ∃ left ∈ (walk {} octopusCommits).snapshot.edges,
    ∃ right ∈ (walk {} octopusCommits).snapshot.edges, left.lane = 1 ∧ right.lane = 2 ∧
      3 ≤ colorDistance left.color right.color := by
  obtain ⟨left, hLeft, right, hRight, hLane₁, hLane₂, hDrawn₁, hDrawn₂⟩ :
      ∃ left ∈ (walk {} octopusCommits).snapshot.edges,
        ∃ right ∈ (walk {} octopusCommits).snapshot.edges, left.lane = 1 ∧ right.lane = 2 ∧
          (left.childRow ≤ 1 ∧ 1 < left.parentRow) ∧ (right.childRow ≤ 1 ∧ 1 < right.parentRow) := by
    decide +kernel
  refine ⟨left, hLeft, right, hRight, hLane₁, hLane₂, ?_⟩
  exact adjacent_lanes_apart {} octopusCommits (by decide) _ (Or.inl rfl) left hLeft right hRight
    (by rw [hLane₁, hLane₂]) (by rw [hLane₂]; decide) 1 hDrawn₁ hDrawn₂

end GraphBuilder

end GitBranchManager
