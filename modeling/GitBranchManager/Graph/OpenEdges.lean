import GitBranchManager.Graph.BuilderSteps

/-! # The open edges are the pending ones

Each pending edge has an edge and a slot of the parent pool to itself, both still open, and an
edge that no pending entry stands for ends at an emitted row.
-/

namespace GitBranchManager

open Library.Waiting LaneAllocator

namespace GraphBuilder

structure Open (b : GraphBuilder) : Prop where
  edgeIds : (b.pending.map fun item => item.2.edgeId).Nodup
  slots : (b.pending.map fun item => item.2.parentPoolIndex).Nodup
  edge : ∀ item ∈ b.pending, ∃ e, b.built.edges[item.2.edgeId]? = some e ∧
    e.parentRow = kRowBoundary ∧ e.childRow = item.2.childRow ∧ e.lane = item.2.lane ∧
    e.color = item.2.color
  slot : ∀ item ∈ b.pending, b.built.parentPool[item.2.parentPoolIndex]? = some kRowBoundary
  closed : ∀ (i : Nat) (e : Edge), b.built.edges[i]? = some e →
    (∃ item ∈ b.pending, item.2.edgeId = i) ∨ e.parentRow < b.built.rows.length
  child : ∀ e ∈ b.built.edges, e.childRow < b.built.rows.length

theorem open_new (options : GraphOptions) : (new options).Open := by
  refine ⟨List.nodup_nil, List.nodup_nil, ?_, ?_, ?_, ?_⟩
  · exact fun _ h => absurd h List.not_mem_nil
  · exact fun _ h => absurd h List.not_mem_nil
  · intro i e h
    simp [new] at h
  · exact fun _ h => absurd h List.not_mem_nil

theorem Open.relane {b : GraphBuilder} (h : b.Open) (lanes : LaneAllocator) :
    ({ b with lanes } : GraphBuilder).Open :=
  ⟨h.edgeIds, h.slots, h.edge, h.slot, h.closed, h.child⟩

theorem Open.markTruncated {b : GraphBuilder} (h : b.Open) : b.markTruncated.Open :=
  ⟨h.edgeIds, h.slots, h.edge, h.slot, h.closed, h.child⟩

/-- The edge of a pending entry is open and has the entry's child, lane and colour. -/
theorem Open.edge_eq {b : GraphBuilder} (h : b.Open) {item : ObjectId × PendingEdge}
    (hItem : item ∈ b.pending) {e : Edge} (hEdge : b.built.edges[item.2.edgeId]? = some e) :
    e.parentRow = kRowBoundary ∧ e.childRow = item.2.childRow ∧ e.lane = item.2.lane ∧
      e.color = item.2.color := by
  obtain ⟨e', hEdge', hOpen⟩ := h.edge item hItem
  obtain rfl : e' = e := Option.some.inj (hEdge'.symm.trans hEdge)
  exact hOpen

theorem Open.edgeId_lt {b : GraphBuilder} (h : b.Open) {item : ObjectId × PendingEdge}
    (hItem : item ∈ b.pending) : item.2.edgeId < b.built.edges.length := by
  obtain ⟨e, hEdge, -⟩ := h.edge item hItem
  exact (List.getElem?_eq_some_iff.mp hEdge).1

theorem Open.arrive {b : GraphBuilder} (h : b.Open) (commit : Commit) (lane : Nat)
    (lanes : LaneAllocator) : (b.arrive commit lane lanes).Open := by
  obtain ⟨row, -, hRows⟩ := rows_arrive b commit lane lanes
  obtain ⟨patched, hPool, hPatched⟩ := pool_arrive b commit lane lanes
  have hLength : (b.arrive commit lane lanes).built.rows.length = b.built.rows.length + 1 := by
    rw [hRows, List.length_append, List.length_singleton]
  have hKept {item : ObjectId × PendingEdge} (hItem : item ∈ discard b.pending commit.oid) :
      item.2.edgeId ∉ (waiting b.pending commit.oid).map PendingEdge.edgeId ∧
      item.2.parentPoolIndex ∉ (waiting b.pending commit.oid).map PendingEdge.parentPoolIndex := by
    constructor
    · intro hMem
      obtain ⟨edge, hEdge, he⟩ := List.mem_map.mp hMem
      exact ticket_ne_of_discard h.edgeIds hEdge hItem he.symm
    · intro hMem
      obtain ⟨edge, hEdge, he⟩ := List.mem_map.mp hMem
      exact ticket_ne_of_discard h.slots hEdge hItem he.symm
  constructor
  · rw [pending_arrive]
    exact nodup_map_discard h.edgeIds commit.oid
  · rw [pending_arrive]
    exact nodup_map_discard h.slots commit.oid
  · intro item hItem
    rw [pending_arrive] at hItem
    obtain ⟨e, hEdge, hOpen⟩ := h.edge item (mem_discard.mp hItem).1
    refine ⟨e, ?_, hOpen⟩
    rw [getElem?_edges_arrive, hEdge, Option.map_some, if_neg (hKept hItem).1]
  · intro item hItem
    rw [pending_arrive] at hItem
    have hSlot := h.slot item (mem_discard.mp hItem).1
    have hPatch : patched[item.2.parentPoolIndex]? = some kRowBoundary := by
      rw [hPatched, hSlot, Option.map_some, if_neg (hKept hItem).2]
    rw [hPool, List.getElem?_append_left (List.getElem?_eq_some_iff.mp hPatch).1, hPatch]
  · intro i e hEdge
    rw [getElem?_edges_arrive, Option.map_eq_some_iff] at hEdge
    obtain ⟨e₀, hEdge, rfl⟩ := hEdge
    rw [hLength, pending_arrive]
    split
    · exact Or.inr (Nat.lt_succ_self _)
    next hNot =>
      rcases h.closed i e₀ hEdge with ⟨item, hItem, hId⟩ | hClosed
      · refine Or.inl ⟨item, mem_discard.mpr ⟨hItem, fun hKey => hNot ?_⟩, hId⟩
        refine List.mem_map.mpr ⟨item.2, ?_, hId⟩
        rw [mem_waiting, ← hKey]
        exact hItem
      · exact Or.inr (Nat.lt_succ_of_lt hClosed)
  · intro e he
    rw [hLength]
    obtain ⟨e₀, hMem, rfl | ⟨_, -, -, rfl⟩⟩ := mem_edges_arrive b commit lane lanes he
    · exact Nat.lt_succ_of_lt (h.child e hMem)
    · exact Nat.lt_succ_of_lt (h.child e₀ hMem)

/-- An arrival changes an edge's end only, which was the open one and becomes the new row. -/
theorem Open.edge_before {b : GraphBuilder} (h : b.Open) (hFits : b.built.rows.length ≤ kRowBoundary)
    {commit : Commit} {lane : Nat} {lanes : LaneAllocator} {i : Nat} {e : Edge}
    (hEdge : (b.arrive commit lane lanes).built.edges[i]? = some e) :
    ∃ e₀, b.built.edges[i]? = some e₀ ∧ e₀ = { e with parentRow := e₀.parentRow } ∧
      e.parentRow ≤ e₀.parentRow ∧
      ∀ row < b.built.rows.length, row < e₀.parentRow → row < e.parentRow := by
  rw [getElem?_edges_arrive, Option.map_eq_some_iff] at hEdge
  obtain ⟨e₀, hEdge, rfl⟩ := hEdge
  refine ⟨e₀, hEdge, ?_⟩
  split
  next hWait =>
    obtain ⟨edge, hMem, rfl⟩ := List.mem_map.mp hWait
    obtain ⟨hBoundary, -⟩ := h.edge_eq (mem_waiting.mp hMem) hEdge
    exact ⟨rfl, hBoundary ▸ hFits, fun row hRow _ => hRow⟩
  next => exact ⟨rfl, Nat.le_refl _, fun _ _ hRow => hRow⟩

theorem Open.connect {b : GraphBuilder} (h : b.Open) (parent : ObjectId) {row : Nat}
    (childLane lane : Nat) (color : UInt8) (kind : EdgeKind) {index : Nat} (first : Bool)
    (hRow : row < b.built.rows.length) (hSlot : b.built.parentPool[index]? = some kRowBoundary)
    (hNew : ∀ item ∈ b.pending, item.2.parentPoolIndex ≠ index) :
    (b.connect parent row childLane lane color kind index first).Open := by
  constructor
  · rw [pending_connect, List.map_append, List.map_singleton, List.nodup_append]
    refine ⟨h.edgeIds, List.nodup_singleton _, ?_⟩
    intro id hId other hOther
    obtain ⟨item, hItem, rfl⟩ := List.mem_map.mp hId
    rw [List.mem_singleton.mp hOther]
    exact (h.edgeId_lt hItem).ne
  · rw [pending_connect, List.map_append, List.map_singleton, List.nodup_append]
    refine ⟨h.slots, List.nodup_singleton _, ?_⟩
    intro slot hId other hOther
    obtain ⟨item, hItem, rfl⟩ := List.mem_map.mp hId
    rw [List.mem_singleton.mp hOther]
    exact hNew item hItem
  · intro item hItem
    rw [pending_connect, List.mem_append, List.mem_singleton] at hItem
    rw [edges_connect]
    rcases hItem with hItem | rfl
    · obtain ⟨e, hEdge, hOpen⟩ := h.edge item hItem
      exact ⟨e, by rw [List.getElem?_append_left (h.edgeId_lt hItem), hEdge], hOpen⟩
    · exact ⟨_, List.getElem?_concat_length, rfl, rfl, rfl, rfl⟩
  · intro item hItem
    rw [pending_connect, List.mem_append, List.mem_singleton] at hItem
    rw [pool_connect]
    rcases hItem with hItem | rfl
    · exact h.slot item hItem
    · exact hSlot
  · intro i e hEdge
    rw [edges_connect] at hEdge
    rw [rows_connect, pending_connect]
    rcases Nat.lt_or_ge i b.built.edges.length with hi | hi
    · rw [List.getElem?_append_left hi] at hEdge
      refine (h.closed i e hEdge).imp_left fun ⟨item, hItem, hId⟩ => ?_
      exact ⟨item, List.mem_append_left _ hItem, hId⟩
    · have hLast := (List.getElem?_eq_some_iff.mp hEdge).1
      rw [List.length_append, List.length_singleton] at hLast
      exact Or.inl ⟨_, List.mem_append_right _ (List.mem_singleton_self _), by
        show b.built.edges.length = i
        omega⟩
  · intro e he
    rw [edges_connect, List.mem_append, List.mem_singleton] at he
    rcases he with he | rfl
    · exact h.child e he
    · exact hRow

/-- While the edges of a row are made: parent `i` of the row takes slot `offset + i`, and the
slots from `next` on are still free. -/
structure Slotted (row offset parents next : Nat) (b : GraphBuilder) : Prop where
  opened : b.Open
  last : b.built.rows.length = row + 1
  pool : ∀ i < parents, b.built.parentPool[offset + i]? = some kRowBoundary
  below : ∀ item ∈ b.pending, item.2.parentPoolIndex < offset + next

theorem Slotted.relane {b : GraphBuilder} {row offset parents next : Nat}
    (h : Slotted row offset parents next b) (lanes : LaneAllocator) :
    Slotted row offset parents next { b with lanes } :=
  ⟨h.opened.relane lanes, h.last, h.pool, h.below⟩

theorem Slotted.connect {b : GraphBuilder} {row offset parents next : Nat}
    (h : Slotted row offset parents next b) (hNext : next < parents) (parent : ObjectId)
    (childLane lane : Nat) (color : UInt8) (kind : EdgeKind) (first : Bool) :
    Slotted row offset parents (next + 1)
      (b.connect parent row childLane lane color kind (offset + next) first) := by
  refine ⟨?_, h.last, h.pool, ?_⟩
  · exact h.opened.connect parent childLane lane color kind first (h.last ▸ Nat.lt_succ_self row)
      (h.pool next hNext) fun item hItem => (h.below item hItem).ne
  · intro item hItem
    rw [pending_connect, List.mem_append, List.mem_singleton] at hItem
    rcases hItem with hItem | rfl
    · exact Nat.lt_succ_of_lt (h.below item hItem)
    · exact Nat.lt_succ_self _

theorem Open.slotted {b : GraphBuilder} (h : b.Open) (commit : Commit) (lane : Nat)
    (lanes : LaneAllocator) : Slotted b.built.rows.length b.built.parentPool.length
      commit.parents.length 0 (b.arrive commit lane lanes) := by
  obtain ⟨row, -, hRows⟩ := rows_arrive b commit lane lanes
  obtain ⟨patched, hPool, hPatched⟩ := pool_arrive b commit lane lanes
  have hLength : patched.length = b.built.parentPool.length := length_eq_of_getElem?_map hPatched
  constructor
  · exact h.arrive commit lane lanes
  · rw [hRows, List.length_append, List.length_singleton]
  · intro i hi
    rw [hPool, List.getElem?_append_right (by omega), hLength, Nat.add_sub_cancel_left,
      List.getElem?_replicate_of_lt hi]
  · intro item hItem
    rw [pending_arrive] at hItem
    exact (List.getElem?_eq_some_iff.mp (h.slot item (mem_discard.mp hItem).1)).1

theorem Open.emit {b : GraphBuilder} (h : b.Open) (commit : Commit) : (b.emit commit).Open := by
  obtain ⟨lane, lanes, -, hEmit⟩ := emit_eq b commit
  have hArrive := h.slotted commit lane lanes
  have hDescend : ∀ color, ((b.arrive commit lane lanes).descend b.built.rows.length lane color
      b.built.parentPool.length commit.parents).Open := by
    intro color
    suffices hSlotted : Slotted b.built.rows.length b.built.parentPool.length commit.parents.length
        commit.parents.length ((b.arrive commit lane lanes).descend b.built.rows.length lane color
          b.built.parentPool.length commit.parents) from hSlotted.opened
    refine descend_steps (motive := fun i b' => Slotted b.built.rows.length
      b.built.parentPool.length commit.parents.length i b') ?_ ?_ ?_
    · intro _
      rw [releaseIfEnded_eq]
      exact hArrive.relane _
    · intro parent hParent
      exact hArrive.connect (List.length_pos_of_mem (List.mem_of_mem_head? hParent)) parent lane lane
        color .firstParent true
    · intro i b' kind parent _ _ hParent hb
      exact (hb.relane _).connect (List.getElem?_eq_some_iff.mp hParent).1 parent lane _ _ kind false
  rw [hEmit]
  have h' := hDescend (lanes.colorOf lane)
  exact ⟨h'.edgeIds, h'.slots, h'.edge, h'.slot, h'.closed, h'.child⟩

theorem open_walk (options : GraphOptions) (commits : List Commit) : (walk options commits).Open :=
  walk_induction (motive := fun _ b => b.Open) options commits (open_new options)
    (fun _ _ h => h.markTruncated) fun _ commit _ _ _ _ _ _ h => h.emit commit

/-- Reopening what is open already changes nothing. -/
theorem Open.foldl_reopen {b : GraphBuilder} (h : b.Open) :
    b.pending.foldl (fun edges item => reopen edges item.2) b.built.edges = b.built.edges := by
  have hEach : ∀ item ∈ b.pending, reopen b.built.edges item.2 = b.built.edges := by
    intro item hItem
    obtain ⟨e, hEdge, hOpen, -⟩ := h.edge item hItem
    apply List.ext_getElem?
    intro i
    rw [reopen, List.getElem?_modify]
    by_cases hi : item.2.edgeId = i
    · subst hi
      simp [hEdge, ← hOpen]
    · simp [hi]
  have hFold : ∀ pending ⊆ b.pending,
      pending.foldl (fun edges item => reopen edges item.2) b.built.edges = b.built.edges := by
    intro pending
    induction pending with
    | nil => exact fun _ => rfl
    | cons item pending ih =>
      intro hSub
      rw [List.foldl_cons, hEach item (hSub List.mem_cons_self)]
      exact ih fun other hOther => hSub (List.mem_cons_of_mem _ hOther)
  exact hFold b.pending (List.Subset.refl _)

theorem Open.edges_snapshot {b : GraphBuilder} (h : b.Open) : b.snapshot.edges = b.built.edges := by
  rw [snapshot]
  dsimp only
  split
  · rfl
  · exact h.foldl_reopen

theorem Open.edges_finish {b : GraphBuilder} (h : b.Open) :
    b.finish.snapshot.edges = b.built.edges := by
  rw [snapshot]
  exact h.foldl_reopen

theorem edges_shown {options : GraphOptions} {commits : List Commit} {s : GraphSnapshot}
    (hs : s = (walk options commits).snapshot ∨ s = (walk options commits).finish.snapshot) :
    s.edges = (walk options commits).built.edges := by
  rcases hs with rfl | rfl
  · exact (open_walk options commits).edges_snapshot
  · exact (open_walk options commits).edges_finish

end GraphBuilder

end GitBranchManager
