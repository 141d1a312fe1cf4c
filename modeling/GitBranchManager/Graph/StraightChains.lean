import GitBranchManager.Graph.BuilderSteps
import GitBranchManager.Graph.Columns

/-! # First-parent chains never move right -/

namespace GitBranchManager

open Library.Waiting LaneAllocator

namespace GraphBuilder

def Linked (b : GraphBuilder) : Prop :=
  ∀ item ∈ b.pending, ∃ e, b.built.edges[item.2.edgeId]? = some e ∧ e.lane = item.2.lane ∧
    e.childRow = item.2.childRow ∧ (e.kind = .firstParent → item.2.firstParent = true)

structure Straight (b : GraphBuilder) : Prop where
  linked : b.Linked
  child : ∀ e ∈ b.built.edges, ∃ m, b.built.rows[e.childRow]? = some m ∧ m.lane = e.childLane
  stays : ∀ e ∈ b.built.edges, e.kind = .firstParent → e.lane = e.childLane
  parent : ∀ e ∈ b.built.edges, e.kind = .firstParent → e.parentRow ≠ kRowBoundary →
    ∃ m, b.built.rows[e.parentRow]? = some m ∧ m.lane ≤ e.lane

theorem Linked.arrive {b : GraphBuilder} (h : b.Linked) (commit : Commit) (lane : Nat)
    (lanes : LaneAllocator) : (b.arrive commit lane lanes).Linked := by
  intro item hItem
  rw [pending_arrive, mem_discard] at hItem
  obtain ⟨e, hEdge, hLane, hChild, hKind⟩ := h item hItem.1
  refine ⟨_, by rw [getElem?_edges_arrive, hEdge, Option.map_some], ?_⟩
  split
  · exact ⟨hLane, hChild, hKind⟩
  · exact ⟨hLane, hChild, hKind⟩

theorem Linked.connect {b : GraphBuilder} (h : b.Linked) (parent : ObjectId)
    (row childLane lane : Nat) (color : UInt8) {kind : EdgeKind} (index : Nat) {first : Bool}
    (hKind : kind = .firstParent → first = true) :
    (b.connect parent row childLane lane color kind index first).Linked := by
  intro item hItem
  rw [pending_connect, List.mem_append, List.mem_singleton] at hItem
  rw [edges_connect]
  rcases hItem with hItem | rfl
  · obtain ⟨e, hEdge, hRest⟩ := h item hItem
    exact ⟨e, by rw [List.getElem?_append_left (List.getElem?_eq_some_iff.mp hEdge).1, hEdge], hRest⟩
  · exact ⟨_, List.getElem?_concat_length, rfl, rfl, hKind⟩

theorem Straight.arrive {b : GraphBuilder} (h : b.Straight) {commit : Commit} {lane : Nat}
    {lanes : LaneAllocator}
    (hLeft : ∀ edge ∈ waiting b.pending commit.oid, edge.firstParent = true → lane ≤ edge.lane) :
    (b.arrive commit lane lanes).Straight := by
  obtain ⟨row, hRow, hRows⟩ := rows_arrive b commit lane lanes
  have keep {i : Nat} {m : RowMeta} (hm : b.built.rows[i]? = some m) :
      (b.arrive commit lane lanes).built.rows[i]? = some m := by
    rw [hRows, List.getElem?_append_left (List.getElem?_eq_some_iff.mp hm).1, hm]
  refine ⟨h.linked.arrive commit lane lanes, ?_, ?_, ?_⟩
  · intro e he
    obtain ⟨e₀, hMem, rfl | ⟨edge, -, -, rfl⟩⟩ := mem_edges_arrive b commit lane lanes he
    · exact (h.child e hMem).imp fun m hm => ⟨keep hm.1, hm.2⟩
    · exact (h.child e₀ hMem).imp fun m hm => ⟨keep hm.1, hm.2⟩
  · intro e he hKind
    obtain ⟨e₀, hMem, rfl | ⟨edge, -, -, rfl⟩⟩ := mem_edges_arrive b commit lane lanes he
    · exact h.stays e hMem hKind
    · exact h.stays e₀ hMem hKind
  · intro e he hKind hParent
    obtain ⟨e₀, hMem, rfl | ⟨edge, hWait, hEdge, rfl⟩⟩ := mem_edges_arrive b commit lane lanes he
    · exact (h.parent e hMem hKind hParent).imp fun m hm => ⟨keep hm.1, hm.2⟩
    · obtain ⟨e₁, hEdge₁, hLane, -, hFirst⟩ := h.linked _ (mem_waiting.mp hWait)
      have he : e₁ = e₀ := Option.some.inj (hEdge₁.symm.trans hEdge)
      subst he
      refine ⟨row, by rw [hRows, List.getElem?_concat_length], ?_⟩
      rw [hRow]
      exact (hLeft edge hWait (hFirst hKind)).trans hLane.ge

theorem Straight.connect {b : GraphBuilder} (h : b.Straight) (parent : ObjectId)
    {row childLane lane : Nat} (color : UInt8) {kind : EdgeKind} (index : Nat) {first : Bool}
    (hRow : ∃ m, b.built.rows[row]? = some m ∧ m.lane = childLane)
    (hKind : kind = .firstParent → first = true ∧ lane = childLane) :
    (b.connect parent row childLane lane color kind index first).Straight := by
  refine ⟨h.linked.connect parent row childLane lane color index fun hk => (hKind hk).1, ?_, ?_, ?_⟩ <;>
    intro e he <;> rw [edges_connect, List.mem_append, List.mem_singleton] at he <;>
    rcases he with he | rfl
  · exact h.child e he
  · exact hRow
  · exact h.stays e he
  · exact fun hk => (hKind hk).2
  · exact h.parent e he
  · exact fun _ hParent => absurd rfl hParent

theorem Straight.emit {b : GraphBuilder} (h : b.Straight) (commit : Commit) :
    (b.emit commit).Straight := by
  obtain ⟨lane, lanes, hOccupied, hEmit⟩ := emit_eq b commit
  obtain ⟨row, hRow, hRows⟩ := rows_arrive b commit lane lanes
  have hArrive : (b.arrive commit lane lanes).Straight := by
    apply h.arrive
    intro edge hWait hFirst
    cases hOccupied with
    | trunk => exact Nat.zero_le _
    | tip _ _ _ hNone =>
      rw [hNone] at hWait
      cases hWait
    | chosen => exact chooseLane_le hWait hFirst
  have hChild : ∃ m, (b.arrive commit lane lanes).built.rows[b.built.rows.length]? = some m ∧
      m.lane = lane :=
    ⟨row, by rw [hRows, List.getElem?_concat_length], hRow⟩
  rw [hEmit]
  suffices hDescend : ∀ parents color offset, ((b.arrive commit lane lanes).descend
      b.built.rows.length lane color offset parents).Straight ∧
      ∃ m, ((b.arrive commit lane lanes).descend b.built.rows.length lane color offset
        parents).built.rows[b.built.rows.length]? = some m ∧ m.lane = lane by
    have h' := (hDescend commit.parents (lanes.colorOf lane) b.built.parentPool.length).1
    exact ⟨h'.linked, h'.child, h'.stays, h'.parent⟩
  intro parents color offset
  refine descend_induction
    (motive := fun b' => b'.Straight ∧ ∃ m, b'.built.rows[b.built.rows.length]? = some m ∧ m.lane = lane)
    ?_ ?_ ?_
  · intro _
    rw [releaseIfEnded_eq]
    exact ⟨⟨hArrive.linked, hArrive.child, hArrive.stays, hArrive.parent⟩, hChild⟩
  · intro parent _
    exact ⟨hArrive.connect parent color offset hChild fun _ => ⟨rfl, rfl⟩, hChild⟩
  · rintro b' kind parent index hKind ⟨hb, hRow'⟩
    refine ⟨Straight.connect ?_ parent _ index hRow' fun hk => absurd hk hKind, hRow'⟩
    exact ⟨hb.linked, hb.child, hb.stays, hb.parent⟩

theorem straight_new (options : GraphOptions) : (new options).Straight := by
  refine ⟨?_, ?_, ?_, ?_⟩ <;> intro _ h <;> cases h

theorem straight_walk (options : GraphOptions) (commits : List Commit) :
    (walk options commits).Straight :=
  walk_induction (motive := fun _ b => b.Straight) options commits (straight_new options)
    (fun _ _ h => ⟨h.linked, h.child, h.stays, h.parent⟩)
    fun _ commit _ _ _ _ _ _ h => h.emit commit

end GraphBuilder

/-! ## No line is drawn through another commit -/

namespace GraphBuilder

/-- Below the overflow lane, no row after an open edge's child stands in the edge's lane, and
none between the two ends of a closed edge. -/
structure Clear (b : GraphBuilder) : Prop where
  linked : b.Linked
  pending : ∀ item ∈ b.pending, item.2.lane < kMaxLanes → ∀ (row : Nat) (m : RowMeta),
    item.2.childRow < row → b.built.rows[row]? = some m → m.lane ≠ item.2.lane
  closed : ∀ e ∈ b.built.edges, e.parentRow ≠ kRowBoundary → e.lane < kMaxLanes →
    e.parentRow < b.built.rows.length ∧ ∀ (row : Nat) (m : RowMeta), e.childRow < row →
      row < e.parentRow → b.built.rows[row]? = some m → m.lane ≠ e.lane

theorem Clear.arrive {b : GraphBuilder} (h : b.Clear) {commit : Commit} {lane : Nat}
    {lanes : LaneAllocator} (hTakes : Takes b commit.oid lane lanes) :
    (b.arrive commit lane lanes).Clear := by
  obtain ⟨new, hNew, hRows⟩ := rows_arrive b commit lane lanes
  have old {row : Nat} {m : RowMeta} (hLt : row < b.built.rows.length)
      (hm : (b.arrive commit lane lanes).built.rows[row]? = some m) :
      b.built.rows[row]? = some m := by
    rwa [hRows, List.getElem?_append_left hLt] at hm
  refine ⟨h.linked.arrive commit lane lanes, ?_, ?_⟩
  · intro item hItem hOwn row m hAfter hm
    rw [pending_arrive] at hItem
    rcases Nat.lt_or_ge row b.built.rows.length with hLt | hGe
    · exact h.pending item (mem_discard.mp hItem).1 hOwn row m hAfter (old hLt hm)
    · obtain rfl : m = new := by
        rw [hRows, List.getElem?_append_right hGe] at hm
        exact List.mem_singleton.mp (List.mem_of_getElem? hm)
      rw [hNew]
      exact fun he => hTakes.free (he ▸ hOwn) item hItem he.symm
  · intro e he hParent hOwn
    rw [hRows, List.length_append, List.length_singleton, ← hRows]
    obtain ⟨e₀, hMem, rfl | ⟨edge, hWait, hEdge, rfl⟩⟩ := mem_edges_arrive b commit lane lanes he
    · obtain ⟨hLt, hBetween⟩ := h.closed e hMem hParent hOwn
      exact ⟨by omega, fun row m hAfter hBefore hm =>
        hBetween row m hAfter hBefore (old (by omega) hm)⟩
    · obtain ⟨e₁, hEdge₁, hLane, hChild, -⟩ := h.linked _ (mem_waiting.mp hWait)
      obtain rfl : e₁ = e₀ := Option.some.inj (hEdge₁.symm.trans hEdge)
      refine ⟨Nat.lt_succ_self _, fun row m hAfter hBefore hm => ?_⟩
      have hClear := h.pending _ (mem_waiting.mp hWait) (hLane ▸ hOwn) row m (hChild ▸ hAfter)
        (old hBefore hm)
      exact fun he => hClear (he.trans hLane)

theorem Clear.connect {b : GraphBuilder} (h : b.Clear) (parent : ObjectId) {row : Nat}
    (childLane lane : Nat) (color : UInt8) (kind : EdgeKind) (index : Nat) {first : Bool}
    (hLast : b.built.rows.length ≤ row + 1) (hKind : kind = .firstParent → first = true) :
    (b.connect parent row childLane lane color kind index first).Clear := by
  refine ⟨h.linked.connect parent row childLane lane color index hKind, ?_, ?_⟩
  · intro item hItem hOwn r m hAfter hm
    rw [pending_connect, List.mem_append, List.mem_singleton] at hItem
    rcases hItem with hItem | rfl
    · exact h.pending item hItem hOwn r m hAfter hm
    · have hLt := (List.getElem?_eq_some_iff.mp hm).1
      rw [rows_connect] at hLt
      dsimp only at hAfter
      omega
  · intro e he hParent
    rw [edges_connect, List.mem_append, List.mem_singleton] at he
    rcases he with he | rfl
    · exact h.closed e he hParent
    · exact absurd rfl hParent

theorem Clear.emit {b : GraphBuilder} (h : b.Clear) (hColumns : b.Columns none) {commit : Commit}
    (hNew : commit.oid ∉ b.built.oids) : (b.emit commit).Clear := by
  obtain ⟨lane, lanes, hOccupied, hEmit⟩ := emit_eq b commit
  obtain ⟨row, -, hRows⟩ := rows_arrive b commit lane lanes
  have hArrive := h.arrive (hColumns.takes hNew hOccupied)
  have hLast : (b.arrive commit lane lanes).built.rows.length ≤ b.built.rows.length + 1 := by
    rw [hRows, List.length_append, List.length_singleton]
  rw [hEmit]
  suffices hDescend : ∀ parents color offset, ((b.arrive commit lane lanes).descend
      b.built.rows.length lane color offset parents).Clear ∧
      ((b.arrive commit lane lanes).descend b.built.rows.length lane color offset
        parents).built.rows.length ≤ b.built.rows.length + 1 by
    have h' := (hDescend commit.parents (lanes.colorOf lane) b.built.parentPool.length).1
    exact ⟨h'.linked, h'.pending, h'.closed⟩
  intro parents color offset
  refine descend_induction
    (motive := fun b' => b'.Clear ∧ b'.built.rows.length ≤ b.built.rows.length + 1) ?_ ?_ ?_
  · intro _
    rw [releaseIfEnded_eq]
    exact ⟨⟨hArrive.linked, hArrive.pending, hArrive.closed⟩, hLast⟩
  · intro parent _
    exact ⟨hArrive.connect parent lane lane color .firstParent offset hLast fun _ => rfl, hLast⟩
  · rintro b' kind parent index hKind ⟨hb, hLast'⟩
    refine ⟨Clear.connect ?_ parent lane _ _ kind index hLast' fun hk => absurd hk hKind, hLast'⟩
    exact ⟨hb.linked, hb.pending, hb.closed⟩

theorem clear_walk {options : GraphOptions} {commits : List Commit}
    (hNodup : (commits.map Commit.oid).Nodup) : (walk options commits).Clear := by
  have h := walk_induction (motive := fun _ b => b.Columns none ∧ b.Clear) options commits
    ⟨columns_new options, ⟨fun _ h => (nomatch h), fun _ h => (nomatch h), fun _ h => (nomatch h)⟩⟩
    (fun _ b h => ⟨h.1.markTruncated, ⟨h.2.linked, h.2.pending, h.2.closed⟩⟩)
    fun _ commit b hPrefix _ hOids _ _ h =>
      have hNew : commit.oid ∉ b.built.oids := hOids ▸ not_mem_done hNodup hPrefix
      ⟨h.1.emit hNew, h.2.emit h.1 hNew⟩
  exact h.2

/-- Between the child and the parent of a drawn edge every row stands in another lane. -/
theorem no_line_through_a_commit (options : GraphOptions) (commits : List Commit)
    (hNodup : (commits.map Commit.oid).Nodup) :
    ∀ e ∈ (walk options commits).finish.snapshot.edges, e.parentRow ≠ kRowBoundary →
      e.lane < kOverflowLane → ∀ row, e.childRow < row → row < e.parentRow →
      ∃ m, (walk options commits).finish.snapshot.rows[row]? = some m ∧ m.lane ≠ e.lane := by
  intro e he hParent hOwn row hAfter hBefore
  have hBuilt := mem_edges_finish (mem_edges_snapshot he hParent) hParent
  obtain ⟨hLt, hClear⟩ := (clear_walk hNodup).closed e hBuilt hParent hOwn
  have hRow : row < (walk options commits).built.rows.length := Nat.lt_trans hBefore hLt
  obtain ⟨m, hm, hLane⟩ := getElem?_rows_finish (List.getElem?_eq_getElem hRow)
  exact ⟨m, hm, hLane ▸ hClear row _ hAfter hBefore (List.getElem?_eq_getElem hRow)⟩

def mergedCommits : List Commit :=
  [{ oid := .replicate 4, parents := [.replicate 3, .replicate 2] },
    { oid := .replicate 3, parents := [.replicate 1] },
    { oid := .replicate 2, parents := [.replicate 1] }, { oid := .replicate 1 }]

/-- The merge's second line passes the row of its first parent. -/
theorem no_line_through_a_commit_merged :
    ∃ m, (walk {} mergedCommits).finish.snapshot.rows[1]? = some m ∧ m.lane ≠ 1 := by
  obtain ⟨e, hMem, hChild, hParent, hLane⟩ :
      ∃ e ∈ (walk {} mergedCommits).finish.snapshot.edges,
        e.childRow = 0 ∧ e.parentRow = 2 ∧ e.lane = 1 := by decide +kernel
  have h := no_line_through_a_commit {} mergedCommits (by decide) e hMem (by rw [hParent]; decide)
    (by rw [hLane]; decide) 1 (by omega) (by omega)
  rwa [hLane] at h

end GraphBuilder

end GitBranchManager
