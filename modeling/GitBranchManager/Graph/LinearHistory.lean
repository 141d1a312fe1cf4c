import GitBranchManager.Graph.EarlyFinish
import GitBranchManager.Graph.HistoryProvider

/-! # Linear history is an unbroken list

The records of a linear walk are emitted one row late, each with the next as its only parent.
While rows follow, one edge is pending, in lane 0, and the next row takes it over.
-/

namespace GitBranchManager

open Library.Waiting LaneAllocator HistoryProvider

namespace GraphBuilder

/-- The builder when row `row` is the last, its parents given: every earlier row leads to the one
below it, and all rows stand in lane 0. -/
structure Tail (row : Nat) (parents : List ObjectId) (b : GraphBuilder) : Prop where
  trunk : b.options.trunkTip.isNull = true
  rows : b.built.rows.map (fun m => (m.parentOffset, m.lane)) = (List.range (row + 1)).map fun r => (r, 0)
  pool : b.built.parentPool =
    (List.range row).map (· + 1) ++ List.replicate parents.length kRowBoundary
  edges : b.built.edges.map (fun e => (e.childRow, e.parentRow)) =
    (List.range row).map (fun r => (r, r + 1)) ++ List.replicate parents.length (row, kRowBoundary)
  pending : ∀ next, parents = [next] → ∃ edge, b.pending = [(next, edge)] ∧ edge.edgeId = row ∧
    edge.parentPoolIndex = row ∧ edge.lane = 0

/-- The builder when the edge to a new row is closed and the row's own edges are yet to come. -/
structure Closed (row : Nat) (parents : List ObjectId) (b : GraphBuilder) : Prop where
  trunk : b.options.trunkTip.isNull = true
  rows : b.built.rows.map (fun m => (m.parentOffset, m.lane)) = (List.range (row + 1)).map fun r => (r, 0)
  pool : b.built.parentPool =
    (List.range row).map (· + 1) ++ List.replicate parents.length kRowBoundary
  edges : b.built.edges.map (fun e => (e.childRow, e.parentRow)) = (List.range row).map fun r => (r, r + 1)
  pending : b.pending = []

theorem edges_descend_open (b : GraphBuilder) (row lane : Nat) (color : UInt8) (offset : Nat)
    (parents : List ObjectId) :
    (b.descend row lane color offset parents).built.edges.map (fun e => (e.childRow, e.parentRow)) =
      b.built.edges.map (fun e => (e.childRow, e.parentRow)) ++
        List.replicate parents.length (row, kRowBoundary) := by
  refine descend_steps (motive := fun i b' => b'.built.edges.map (fun e => (e.childRow, e.parentRow)) =
    b.built.edges.map (fun e => (e.childRow, e.parentRow)) ++ List.replicate i (row, kRowBoundary)) ?_ ?_ ?_
  · intro _
    rw [releaseIfEnded_eq, List.replicate_zero, List.append_nil]
  · intro parent _
    rw [connectFirst, edges_connect, List.map_append]
    rfl
  · intro i b' kind parent _ _ _ hb
    rw [connectMerged, edges_connect, List.map_append, hb, List.append_assoc, List.replicate_succ']
    rfl

theorem Closed.tail {row : Nat} {parents : List ObjectId} {b : GraphBuilder} (h : Closed row parents b)
    (color : UInt8) : Tail row parents (b.descend row 0 color row parents).recordLaneCount := by
  obtain ⟨hOptions, -, hRows⟩ := descend_frame b row 0 color row parents
  have hPool := (edges_descend b row 0 color row parents).2.1
  have hEdges := edges_descend_open b row 0 color row parents
  constructor
  · exact (congrArg (fun o : GraphOptions => o.trunkTip.isNull) hOptions).trans h.trunk
  · exact (congrArg (List.map _) hRows).trans h.rows
  · exact hPool.trans h.pool
  · rw [h.edges] at hEdges
    exact hEdges
  · rintro next rfl
    have hCount : b.built.edges.length = row := by
      have hLength := congrArg List.length h.edges
      rwa [List.length_map, List.length_map, List.length_range] at hLength
    refine ⟨
      { edgeId := b.built.edges.length, parentPoolIndex := row, lane := 0, childRow := row, color
        firstParent := true }, ?_, hCount, rfl, rfl⟩
    change (b.connectFirst row 0 color row next).pending = _
    rw [connectFirst, pending_connect, h.pending]
    rfl

theorem patched_last {α : Type} {xs ys : List α} {x : α} (patch : α → α)
    (h : ∀ i, ys[i]? = (xs ++ [x])[i]?.map fun a => if i ∈ [xs.length] then patch a else a) :
    ys = xs ++ [patch x] := by
  apply List.ext_getElem?
  intro i
  rw [h]
  simp only [List.mem_singleton]
  rcases Nat.lt_trichotomy i xs.length with hBefore | rfl | hAfter
  · rw [List.getElem?_append_left hBefore, List.getElem?_append_left hBefore]
    simp [hBefore.ne]
  · simp
  · rw [List.getElem?_eq_none (by simp; omega), List.getElem?_eq_none (by simp; omega), Option.map_none]

theorem rows_arrive_tail {b : GraphBuilder} {row : Nat} (commit : Commit) (lanes : LaneAllocator)
    (hRows : b.built.rows.map (fun m => (m.parentOffset, m.lane)) = (List.range row).map fun r => (r, 0))
    (hPool : b.built.parentPool.length = row) :
    (b.arrive commit 0 lanes).built.rows.map (fun m => (m.parentOffset, m.lane)) =
      (List.range (row + 1)).map fun r => (r, 0) := by
  rw [rowMeta_arrive, List.map_append, hRows, List.range_succ, List.map_append, List.map_singleton,
    List.map_singleton, rowMeta, hPool]

theorem closed_first {options : GraphOptions} (hTrunk : options.trunkTip.isNull = true) (commit : Commit)
    (lanes : LaneAllocator) : Closed 0 commit.parents ((new options).arrive commit 0 lanes) := by
  obtain ⟨patched, hPool, hPatched⟩ := pool_arrive (new options) commit 0 lanes
  constructor
  · rw [options_arrive]
    exact hTrunk
  · exact rows_arrive_tail commit lanes rfl rfl
  · have hNone : patched = [] := List.ext_getElem? hPatched
    rw [hPool, hNone]
    rfl
  · have hNone : ((new options).arrive commit 0 lanes).built.edges = [] :=
      List.ext_getElem? (getElem?_edges_arrive (new options) commit 0 lanes)
    rw [hNone]
    rfl
  · rw [pending_arrive]
    rfl

theorem Tail.closed {row : Nat} {next : ObjectId} {b : GraphBuilder} (h : Tail row [next] b) {commit : Commit}
    (hNext : commit.oid = next) (lanes : LaneAllocator) :
    Closed (row + 1) commit.parents (b.arrive commit 0 lanes) := by
  obtain ⟨edge, hPending, hEdge, hSlot, -⟩ := h.pending next rfl
  have hWaiting : waiting b.pending commit.oid = [edge] := by
    rw [hPending, hNext]
    simp [waiting]
  have hRows : b.built.rows.length = row + 1 := by
    have hLength := congrArg List.length h.rows
    rwa [List.length_map, List.length_map, List.length_range] at hLength
  obtain ⟨patched, hPool, hPatched⟩ := pool_arrive b commit 0 lanes
  constructor
  · rw [options_arrive]
    exact h.trunk
  · refine rows_arrive_tail commit lanes h.rows ?_
    rw [h.pool, List.length_append, List.length_map, List.length_range]
    rfl
  · have hLast : patched = (List.range row).map (· + 1) ++ [row + 1] := by
      apply patched_last (fun _ => row + 1) (x := kRowBoundary)
      intro i
      rw [hPatched, hWaiting, h.pool, hRows, List.map_singleton, hSlot, List.length_map, List.length_range]
      rfl
    rw [hPool, hLast, List.range_succ, List.map_append]
    rfl
  · obtain ⟨closed, last, hSplit, hClosed, hOpen⟩ := List.map_eq_append_iff.mp h.edges
    obtain ⟨e, rfl, he⟩ := List.map_eq_singleton_iff.mp hOpen
    have hLast : (b.arrive commit 0 lanes).built.edges = closed ++ [{ e with parentRow := row + 1 }] := by
      apply patched_last fun e : Edge => { e with parentRow := row + 1 }
      intro i
      have hCount : closed.length = row := by
        have hLength := congrArg List.length hClosed
        rwa [List.length_map, List.length_map, List.length_range] at hLength
      rw [getElem?_edges_arrive, hWaiting, hSplit, hRows, List.map_singleton, hEdge, hCount]
    rw [hLast, List.map_append, hClosed, List.range_succ, List.map_append, List.map_singleton,
      List.map_singleton, (Prod.mk.inj he).1]
  · rw [pending_arrive, hPending, hNext]
    simp [Library.Waiting.discard]

theorem tail_first {options : GraphOptions} (hTrunk : options.trunkTip.isNull = true) (commit : Commit) :
    Tail 0 commit.parents ((new options).emit commit) := by
  have hLanes : (new options).lanes = {} := if_pos hTrunk
  have hTip : (new options).isTrunkTip commit.oid = false := by
    rw [isTrunkTip, Bool.and_eq_false_iff, Bool.not_eq_false']
    exact Or.inl hTrunk
  have hLeftmost : (LaneAllocator.allocateLeftmost {}).1 = 0 := by decide +kernel
  obtain ⟨lanes, hOccupy⟩ : ∃ lanes,
      (new options).occupy commit.oid (waiting (new options).pending commit.oid) = (0, lanes) := by
    rw [occupy, hTip, hLanes]
    generalize LaneAllocator.allocateLeftmost {} = allocated at hLeftmost ⊢
    obtain ⟨lane, lanes⟩ := allocated
    obtain rfl : lane = 0 := hLeftmost
    exact ⟨lanes.seed 0 commit.oid, rfl⟩
  rw [emit_of_occupy hOccupy]
  exact (closed_first hTrunk commit lanes).tail _

/-- The row that the last one waits for takes over its lane. -/
theorem Tail.emit {row : Nat} {next : ObjectId} {b : GraphBuilder} (h : Tail row [next] b) {commit : Commit}
    (hNext : commit.oid = next) : Tail (row + 1) commit.parents (b.emit commit) := by
  obtain ⟨edge, hPending, -, -, hLane⟩ := h.pending next rfl
  have hTip : b.isTrunkTip commit.oid = false := by
    rw [isTrunkTip, Bool.and_eq_false_iff, Bool.not_eq_false']
    exact Or.inl h.trunk
  have hOccupy : b.occupy commit.oid (waiting b.pending commit.oid) = (0, b.lanes) := by
    have hWaiting : waiting b.pending commit.oid = [edge] := by
      rw [hPending, hNext]
      simp [waiting]
    rw [occupy, hTip, hWaiting]
    exact Prod.ext hLane rfl
  have hRows : b.built.rows.length = row + 1 := by
    have hLength := congrArg List.length h.rows
    rwa [List.length_map, List.length_map, List.length_range] at hLength
  have hPool : b.built.parentPool.length = row + 1 := by
    rw [h.pool, List.length_append, List.length_map, List.length_range]
    rfl
  rw [emit_of_occupy hOccupy, hRows, hPool]
  exact (h.closed hNext b.lanes).tail _

theorem truncated_emit (b : GraphBuilder) (commit : Commit) :
    (b.emit commit).built.truncated = b.built.truncated := by
  obtain ⟨lane, lanes, -, hEmit⟩ := emit_eq b commit
  have hArrive : (b.arrive commit lane lanes).built.truncated = b.built.truncated := by
    rw [arrive, releaseOthers_eq, patchIncoming_eq]
    rfl
  rw [hEmit, ← hArrive]
  refine descend_induction (motive := fun b' =>
    b'.built.truncated = (b.arrive commit lane lanes).built.truncated) ?_ ?_ ?_
  · intro _
    rw [releaseIfEnded_eq]
  · exact fun _ _ => rfl
  · exact fun _ _ _ _ _ hb => hb

theorem add_of_room {b : GraphBuilder} (h : b.built.rows.length < b.options.maxRows.toNat) (commit : Commit) :
    b.add commit = b.emit commit := if_neg (Nat.not_le.mpr h)

/-- Each commit of the rest is what the one before it waits for. -/
theorem Tail.run {row : Nat} {commit : Commit} {b : GraphBuilder} (h : Tail row commit.parents b)
    {more : List Commit} (hChain : (commit :: more).IsChain fun above below => above.parents = [below.oid])
    (hRoom : row + 1 + more.length ≤ b.options.maxRows.toNat) :
    ∀ last ∈ (commit :: more).getLast?, Tail (row + more.length) last.parents (more.foldl add b) := by
  induction more generalizing row commit b with
  | nil =>
    intro last hLast
    obtain rfl := Option.some.inj hLast
    exact h
  | cons next more ih =>
    intro last hLast
    rw [List.isChain_cons_cons] at hChain
    obtain ⟨hParent, hMore⟩ := hChain
    rw [hParent] at h
    have hRows : b.built.rows.length = row + 1 := by
      have hLength := congrArg List.length h.rows
      rwa [List.length_map, List.length_map, List.length_range] at hLength
    rw [List.length_cons] at hRoom ⊢
    have hAdd : b.add next = b.emit next := add_of_room (by omega) next
    rw [List.foldl_cons, hAdd, Nat.add_comm more.length, ← Nat.add_assoc]
    refine ih (h.emit rfl) hMore ?_ last ?_
    · rw [options_emit]
      omega
    · rwa [List.getLast?_cons_cons] at hLast

end GraphBuilder

/-- One row for each record, one below the other in lane 0; only the last keeps its own parents,
with open ends. -/
structure UnbrokenList (records : List Record) (s : GraphSnapshot) : Prop where
  oids : s.oids = records.map Record.oid
  rows : s.rows.length = records.length
  lanes : ∀ m ∈ s.rows, m.lane = 0
  edge : ∀ row, row + 1 < records.length →
    ∃ e, s.edges.filter (fun e => e.childRow == row) = [e] ∧ e.parentRow = row + 1
  parent : ∀ row, row + 1 < records.length → s.parentsOf row = [row + 1]
  lastEdges : ∀ last ∈ records.getLast?, (s.edges.filter fun e => e.childRow + 1 == records.length).map
    Edge.parentRow = List.replicate last.parents.length kRowBoundary
  lastParents : ∀ last ∈ records.getLast?,
    s.parentsOf (records.length - 1) = List.replicate last.parents.length kRowBoundary

namespace GraphBuilder

theorem Tail.parentsOf {row : Nat} {parents : List ObjectId} {b : GraphBuilder} (h : Tail row parents b)
    {s : GraphSnapshot} (hOffsets : s.rows.map RowMeta.parentOffset = b.built.rows.map RowMeta.parentOffset)
    (hPool : s.parentPool = b.built.parentPool) :
    (∀ r < row, s.parentsOf r = [r + 1]) ∧
      s.parentsOf row = List.replicate parents.length kRowBoundary := by
  have hOffset : ∀ r, s.rows[r]?.map RowMeta.parentOffset = if r < row + 1 then some r else none := by
    intro r
    have hFirsts := congrArg (List.map Prod.fst) h.rows
    rw [List.map_map, List.map_map] at hFirsts
    rw [← List.getElem?_map, hOffsets]
    change (b.built.rows.map (Prod.fst ∘ fun m => (m.parentOffset, m.lane)))[r]? = _
    rw [hFirsts, List.getElem?_map]
    split
    next hr => rw [List.getElem?_range hr, Option.map_some, Function.comp]
    next hr => rw [List.getElem?_eq_none (by simpa using hr), Option.map_none]
  have hLength : s.parentPool.length = row + parents.length := by
    rw [hPool, h.pool, List.length_append, List.length_map, List.length_range, List.length_replicate]
  constructor
  · intro r hr
    have hEnd : (s.rows[r + 1]?.map RowMeta.parentOffset).getD s.parentPool.length = r + 1 := by
      rw [hOffset, if_pos (Nat.succ_lt_succ hr), Option.getD_some]
    rw [GraphSnapshot.parentsOf_slice ((hOffset r).trans (if_pos (Nat.lt_succ_of_lt hr))) hEnd,
      Nat.add_sub_cancel_left, List.take_one, List.head?_drop, hPool, h.pool,
      List.getElem?_append_left (by simpa using hr), List.getElem?_map, List.getElem?_range hr]
    rfl
  · have hEnd : (s.rows[row + 1]?.map RowMeta.parentOffset).getD s.parentPool.length =
        row + parents.length := by
      rw [hOffset, if_neg (Nat.lt_irrefl _), Option.getD_none, hLength]
    rw [GraphSnapshot.parentsOf_slice ((hOffset row).trans (if_pos (Nat.lt_succ_self row))) hEnd,
      Nat.add_sub_cancel_left, hPool, h.pool, List.drop_left' (by simp),
      List.take_of_length_le (by rw [List.length_replicate])]

theorem Tail.edges_filter {row : Nat} {parents : List ObjectId} {b : GraphBuilder} (h : Tail row parents b) :
    (∀ r < row, ∃ e, b.built.edges.filter (fun e => e.childRow == r) = [e] ∧ e.parentRow = r + 1) ∧
      (b.built.edges.filter fun e => e.childRow == row).map Edge.parentRow =
        List.replicate parents.length kRowBoundary := by
  have hPairs : ∀ r, (b.built.edges.filter fun e => e.childRow == r).map (fun e => (e.childRow, e.parentRow)) =
      ((List.range row).filter (· == r)).map (fun r => (r, r + 1)) ++
        (List.replicate parents.length (row, kRowBoundary)).filter fun pair => pair.1 == r := by
    intro r
    have hFilter := congrArg (List.filter fun pair => pair.1 == r) h.edges
    rw [List.filter_map, List.filter_append, List.filter_map] at hFilter
    exact hFilter
  constructor
  · intro r hr
    have hOne := hPairs r
    rw [List.filter_beq, List.count_eq_one_of_mem List.nodup_range (List.mem_range.mpr hr),
      List.filter_replicate_of_neg (by simpa using hr.ne'), List.append_nil] at hOne
    obtain ⟨e, hEdge, he⟩ := List.map_eq_singleton_iff.mp hOne
    exact ⟨e, hEdge, (Prod.mk.inj he).2⟩
  · have hLast := congrArg (List.map Prod.snd) (hPairs row)
    rw [List.filter_beq, List.count_eq_zero_of_not_mem (by simp), List.replicate_zero, List.map_nil,
      List.nil_append, List.filter_replicate_of_pos (by simp), List.map_replicate, List.map_map] at hLast
    exact hLast

theorem tail_walk {options : GraphOptions} (hTrunk : options.trunkTip.isNull = true) {commits : List Commit}
    (hChain : commits.IsChain fun above below => above.parents = [below.oid])
    (hRoom : commits.length ≤ options.maxRows.toNat) :
    ∀ last ∈ commits.getLast?, Tail (commits.length - 1) last.parents (walk options commits) := by
  intro last hLast
  cases commits with
  | nil => cases hLast
  | cons first more =>
    rw [List.length_cons] at hRoom
    have hAdd : (new options).add first = (new options).emit first :=
      add_of_room (Nat.lt_of_lt_of_le (Nat.succ_pos _) hRoom) first
    have hMore : 0 + 1 + more.length ≤ ((new options).emit first).options.maxRows.toNat := by
      rw [options_emit, Nat.zero_add, Nat.add_comm]
      exact hRoom
    have hRun := (tail_first hTrunk first).run hChain hMore last hLast
    rw [walk, List.foldl_cons, hAdd, List.length_cons, Nat.add_sub_cancel]
    rwa [Nat.zero_add] at hRun

end GraphBuilder

namespace HistoryProvider

/-- The commits that a linear walk emits: each record but the last has the next for its parent. -/
def bridged : List Record → List Commit
  | [] => []
  | [record] => [{ oid := record.oid, parents := record.parents, commitTime := record.commitTime }]
  | record :: next :: records =>
    { oid := record.oid, parents := [next.oid], commitTime := record.commitTime } :: bridged (next :: records)

def validRecords (arrivals : List Arrival) : List Record :=
  (arrivals.map fun arrival => parseRevListLine arrival.line).filter Record.valid

/-- The record still held back goes last. -/
def WalkState.flush (s : WalkState) : GraphBuilder :=
  if s.held.valid then
    s.builder.add { oid := s.held.oid, parents := s.held.parents, commitTime := s.held.commitTime }
  else s.builder

theorem publish_frame (s : WalkState) (waited : Bool) :
    (s.publish waited).builder = s.builder ∧ (s.publish waited).held = s.held := by
  rw [WalkState.publish]
  split <;> exact ⟨rfl, rfl⟩

/-- The builder after a record: while there is room, at most one row more and nothing cut off. -/
theorem accept_linear {s : WalkState} (hFits : s.builder.built.truncated = false)
    (hRoom : s.builder.built.rows.length < s.builder.options.maxRows.toNat) (record : Record) :
    (s.accept true record).held = record ∧ (s.accept true record).builder.built.truncated = false ∧
      (s.accept true record).builder.options = s.builder.options ∧
      (s.accept true record).builder.built.rows.length ≤ s.builder.built.rows.length + 1 := by
  rw [WalkState.accept, if_pos rfl]
  refine ⟨rfl, ?_⟩
  dsimp only
  split
  · rw [GraphBuilder.add_of_room hRoom, GraphBuilder.truncated_emit, GraphBuilder.options_emit,
      GraphBuilder.length_rows_emit]
    exact ⟨hFits, rfl, Nat.le_refl _⟩
  · exact ⟨hFits, rfl, Nat.le_succ _⟩

theorem sink_malformed (s : WalkState) (query : HistoryQuery) {arrival : Arrival}
    (hNow : arrival.cancelled = false) (hValid : (parseRevListLine arrival.line).valid = false) :
    s.sink query arrival = ({ s with malformedLines := s.malformedLines + 1 }, true) := by
  simp [WalkState.sink, hNow, hValid]

theorem sink_record {s : WalkState} {query : HistoryQuery} (hLinear : query.isLinearWalk = true)
    {arrival : Arrival} (hNow : arrival.cancelled = false)
    (hValid : (parseRevListLine arrival.line).valid = true)
    (hFits : (s.accept true (parseRevListLine arrival.line)).builder.built.truncated = false) :
    s.sink query arrival =
      ((s.accept true (parseRevListLine arrival.line)).publish arrival.waited, true) := by
  simp [WalkState.sink, hNow, hValid, hLinear, hFits]

theorem flush_streamSeparated {query : HistoryQuery} (hLinear : query.isLinearWalk = true)
    {arrivals : List Arrival} (hAwake : ∀ arrival ∈ arrivals, arrival.cancelled = false) {s : WalkState}
    (hFits : s.builder.built.truncated = false)
    (hRoom : s.builder.built.rows.length + (validRecords arrivals).length <
      s.builder.options.maxRows.toNat) :
    (s.streamSeparated query arrivals).flush = (bridged (if s.held.valid then
      s.held :: validRecords arrivals else validRecords arrivals)).foldl GraphBuilder.add s.builder := by
  induction arrivals generalizing s with
  | nil =>
    rw [WalkState.streamSeparated, WalkState.flush]
    split <;> rfl
  | cons arrival arrivals ih =>
    obtain ⟨hNow, hLater⟩ := List.forall_mem_cons.mp hAwake
    rw [WalkState.streamSeparated]
    cases hValid : (parseRevListLine arrival.line).valid with
    | false =>
      have hSkip : validRecords (arrival :: arrivals) = validRecords arrivals :=
        List.filter_cons_of_neg (by simp [hValid])
      rw [hSkip] at hRoom ⊢
      rw [sink_malformed s query hNow hValid]
      exact ih (s := { s with malformedLines := s.malformedLines + 1 }) hLater hFits hRoom
    | true =>
      have hTake : validRecords (arrival :: arrivals) =
          parseRevListLine arrival.line :: validRecords arrivals := List.filter_cons_of_pos hValid
      rw [hTake, List.length_cons] at hRoom
      obtain ⟨hHeld, hWhole, hOptions, hRows⟩ :=
        accept_linear hFits (by omega) (parseRevListLine arrival.line)
      obtain ⟨hBuilder, hKept⟩ :=
        publish_frame (s.accept true (parseRevListLine arrival.line)) arrival.waited
      have hRest := ih (s := (s.accept true (parseRevListLine arrival.line)).publish arrival.waited) hLater
        (by rw [hBuilder, hWhole]) (by rw [hBuilder, hOptions]; omega)
      rw [hKept, hHeld, if_pos hValid, hBuilder] at hRest
      rw [sink_record hLinear hNow hValid hWhole, hTake]
      refine hRest.trans ?_
      rw [WalkState.accept, if_pos rfl]
      dsimp only
      split <;> rfl

theorem length_bridged (records : List Record) : (bridged records).length = records.length := by
  induction records with
  | nil => rfl
  | cons record records ih =>
    cases records with
    | nil => rfl
    | cons next records => exact congrArg (· + 1) ih

theorem oids_bridged (records : List Record) :
    (bridged records).map Commit.oid = records.map Record.oid := by
  induction records with
  | nil => rfl
  | cons record records ih =>
    cases records with
    | nil => rfl
    | cons next records => exact congrArg (record.oid :: ·) ih

theorem isChain_bridged (records : List Record) :
    (bridged records).IsChain fun above below => above.parents = [below.oid] := by
  induction records with
  | nil => exact .nil
  | cons record records ih =>
    cases records with
    | nil => exact .singleton _
    | cons next records =>
      cases records with
      | nil => exact .cons_cons rfl ih
      | cons later records => exact .cons_cons rfl ih

theorem getLast?_bridged (records : List Record) :
    (bridged records).getLast?.map Commit.parents = records.getLast?.map Record.parents := by
  induction records with
  | nil => rfl
  | cons record records ih =>
    cases records with
    | nil => rfl
    | cons next records =>
      cases records with
      | nil => exact ih
      | cons later records => exact ih

theorem unbroken_of_walk {options : GraphOptions} (hTrunk : options.trunkTip.isNull = true)
    {records : List Record} (hRoom : records.length ≤ options.maxRows.toNat) {s : GraphSnapshot}
    (hOids : s.oids = (GraphBuilder.walk options (bridged records)).built.oids)
    (hEdges : s.edges = (GraphBuilder.walk options (bridged records)).built.edges)
    (hPool : s.parentPool = (GraphBuilder.walk options (bridged records)).built.parentPool)
    (hRows : s.rows.map (fun m => (m.parentOffset, m.lane)) =
      (GraphBuilder.walk options (bridged records)).built.rows.map fun m => (m.parentOffset, m.lane)) :
    UnbrokenList records s := by
  have hLength := length_bridged records
  have hTake : (bridged records).take options.maxRows.toNat = bridged records :=
    List.take_of_length_le (hLength ▸ hRoom)
  have hTail := GraphBuilder.tail_walk hTrunk (isChain_bridged records) (hLength ▸ hRoom)
  have hOffsets : s.rows.map RowMeta.parentOffset =
      (GraphBuilder.walk options (bridged records)).built.rows.map RowMeta.parentOffset := by
    have hFirsts := congrArg (List.map Prod.fst) hRows
    rwa [List.map_map, List.map_map] at hFirsts
  have hCount : s.rows.length = records.length := by
    have hSame := congrArg List.length hRows
    rwa [List.length_map, List.length_map, GraphBuilder.length_rows_walk, hTake, hLength] at hSame
  -- the state at the end, for whatever the last record is
  have hLast : ∀ last ∈ records.getLast?,
      GraphBuilder.Tail (records.length - 1) last.parents (GraphBuilder.walk options (bridged records)) := by
    intro last hLast
    have hParents := getLast?_bridged records
    rw [Option.mem_def.mp hLast, Option.map_some] at hParents
    obtain ⟨commit, hCommit, hSame⟩ := Option.map_eq_some_iff.mp hParents
    rw [← hSame, ← hLength]
    exact hTail commit hCommit
  have hSome : ∀ row, row < records.length → ∃ last, last ∈ records.getLast? := by
    intro row hRow
    have hNe : records ≠ [] := List.ne_nil_of_length_pos (Nat.lt_of_le_of_lt (Nat.zero_le row) hRow)
    exact ⟨_, List.getLast?_eq_some_getLast hNe⟩
  constructor
  · rw [hOids, GraphBuilder.oids_walk, hTake, oids_bridged]
  · exact hCount
  · intro m hm
    obtain ⟨last, hEnd⟩ := hSome 0 (hCount ▸ List.length_pos_of_mem hm)
    have hPair := List.mem_map_of_mem (f := fun m : RowMeta => (m.parentOffset, m.lane)) hm
    rw [hRows, (hLast last hEnd).rows] at hPair
    obtain ⟨r, -, hSame⟩ := List.mem_map.mp hPair
    exact (Prod.mk.inj hSame).2.symm
  · intro row hRow
    obtain ⟨last, hEnd⟩ := hSome row (Nat.lt_of_succ_lt hRow)
    rw [hEdges]
    exact (hLast last hEnd).edges_filter.1 row (by omega)
  · intro row hRow
    obtain ⟨last, hEnd⟩ := hSome row (Nat.lt_of_succ_lt hRow)
    exact ((hLast last hEnd).parentsOf hOffsets hPool).1 row (by omega)
  · intro last hEnd
    have hPositive : 0 < records.length := List.length_pos_of_mem (List.mem_of_getLast? hEnd)
    have hSame : ∀ e : Edge, (e.childRow + 1 == records.length) = (e.childRow == records.length - 1) := by
      intro e
      rw [Bool.eq_iff_iff, beq_iff_eq, beq_iff_eq]
      omega
    simp only [hSame]
    rw [hEdges]
    exact (hLast last hEnd).edges_filter.2
  · exact fun last hEnd => ((hLast last hEnd).parentsOf hOffsets hPool).2

/-- However malformed lines and chunks come between, a linear walk shows its valid records as one
line in lane 0. -/
theorem linear_history_unbroken (query : HistoryQuery) (hLinear : query.isLinearWalk = true)
    (arrivals : List Arrival) (hAwake : ∀ arrival ∈ arrivals, arrival.cancelled = false)
    (hRoom : (validRecords arrivals).length < ({} : GraphOptions).maxRows.toNat) :
    ∃ s, (walk query arrivals (.ok ())).1 = .ok s ∧ UnbrokenList (validRecords arrivals) s := by
  have hTrunk : query.trunkTip.isNull = true := by
    apply query.unreserved
    intro hNone
    rw [HistoryQuery.isLinearWalk, hNone] at hLinear
    cases hLinear
  have hFlush := flush_streamSeparated hLinear hAwake
    (s := { builder := .new { trunkTip := query.trunkTip } }) rfl (by rwa [Nat.add_comm])
  rw [if_neg Bool.false_ne_true] at hFlush
  change _ = GraphBuilder.walk { trunkTip := query.trunkTip } (bridged (validRecords arrivals)) at hFlush
  have hOpen := GraphBuilder.open_walk { trunkTip := query.trunkTip } (bridged (validRecords arrivals))
  have hUnbroken := @unbroken_of_walk { trunkTip := query.trunkTip } hTrunk (validRecords arrivals) hRoom.le
  rw [walk, hLinear]
  refine ⟨_, rfl, ?_⟩
  rw [Bool.true_and, ← WalkState.flush, hFlush]
  -- a count that is reached marks the history cut, which no row shows
  split
  · refine hUnbroken rfl hOpen.markTruncated.edges_finish rfl ?_
    exact GraphBuilder.map_rows_finish (fun _ _ => rfl) _
  · refine hUnbroken rfl hOpen.edges_finish rfl ?_
    exact GraphBuilder.map_rows_finish (fun _ _ => rfl) _

def mergelessQuery : HistoryQuery where
  includeRefs := [ascii "topic"]
  noMerges := true
  unreserved _ := rfl

def mergelessArrivals : List Arrival :=
  [{ line := ascii "20 aaaaaaaaaaaaaaaaaaaaaaaaaaaaaaaaaaaaaaaa bbbbbbbbbbbbbbbbbbbbbbbbbbbbbbbbbbbbbbbb" },
    { line := ascii "warning" },
    { line := ascii "10 cccccccccccccccccccccccccccccccccccccccc" }]

theorem linear_history_unbroken_gap : ∃ s, (walk mergelessQuery mergelessArrivals (.ok ())).1 = .ok s ∧
    UnbrokenList (validRecords mergelessArrivals) s :=
  linear_history_unbroken mergelessQuery rfl mergelessArrivals (by simp [mergelessArrivals]) (by
    have hAtMost : (validRecords mergelessArrivals).length ≤ 3 := List.length_filter_le _ _
    exact Nat.lt_of_le_of_lt hAtMost (by decide))

end HistoryProvider

end GitBranchManager
