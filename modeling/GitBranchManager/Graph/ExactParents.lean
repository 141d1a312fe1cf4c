import GitBranchManager.Graph.Columns
import GitBranchManager.Graph.Streaming
import GitBranchManager.Graph.TrunkLane
import GitBranchManager.Library.Scans

/-! # Parents are exact

Every parent has one slot of the parent pool, in the order of the rows. A slot waits, open,
until its parent is emitted, and then holds the parent's row: no other commit writes to it.
-/

namespace GitBranchManager

open Library.Waiting LaneAllocator

namespace GraphSnapshot

/-- The exact count, from the gap between consecutive offsets. -/
def parentCountOf (s : GraphSnapshot) (row : Nat) : Nat :=
  match s.rows[row]? with
  | none => 0
  | some m => ((s.rows[row + 1]?).elim s.parentPool.length RowMeta.parentOffset) - m.parentOffset

def parentsOf (s : GraphSnapshot) (row : Nat) : List Nat :=
  match s.rows[row]? with
  | none => []
  | some m => (List.range (s.parentCountOf row)).filterMap fun i => s.parentPool[m.parentOffset + i]?

end GraphSnapshot

/-- The parents of the commits in the order of the pool, each with the row of its child. -/
def parentSlots (commits : List Commit) : List (ObjectId × Nat) :=
  commits.zipIdx.flatMap fun entry => entry.1.parents.map fun parent => (parent, entry.2)

/-- The row of a commit that was emitted, `kRowBoundary` for any other. -/
def rowOf (emitted : List Commit) (oid : ObjectId) : Nat :=
  (emitted.findIdx? fun commit => commit.oid == oid).getD kRowBoundary

theorem parentSlots_append (commits : List Commit) (commit : Commit) :
    parentSlots (commits ++ [commit]) =
      parentSlots commits ++ commit.parents.map fun parent => (parent, commits.length) := by
  simp [parentSlots, List.zipIdx_append]

theorem parentSlots_prefix (commits more : List Commit) :
    parentSlots commits <+: parentSlots (commits ++ more) := by
  rw [parentSlots, parentSlots, List.zipIdx_append, List.flatMap_append]
  exact List.prefix_append _ _

/-- The slots of a row follow those of the rows above. -/
theorem parentSlots_take {commits : List Commit} {row : Nat} {commit : Commit}
    (hRow : commits[row]? = some commit) : parentSlots (commits.take (row + 1)) =
      parentSlots (commits.take row) ++ commit.parents.map fun parent => (parent, row) := by
  have hLt := (List.getElem?_eq_some_iff.mp hRow).1
  rw [List.take_add_one, hRow, Option.toList_some, parentSlots_append, List.length_take,
    Nat.min_eq_left hLt.le]

theorem rowOf_append (commits : List Commit) (commit : Commit) {oid : ObjectId}
    (hNew : commit.oid ∉ commits.map Commit.oid) :
    rowOf (commits ++ [commit]) oid = if oid = commit.oid then commits.length else rowOf commits oid := by
  rw [rowOf, List.findIdx?_append]
  split
  next hEq =>
    have hNone : commits.findIdx? (fun c => c.oid == oid) = none := by
      rw [List.findIdx?_eq_none_iff]
      intro c hc
      rw [beq_eq_false_iff_ne, hEq]
      exact fun h => hNew (h ▸ List.mem_map_of_mem hc)
    rw [hNone, hEq]
    simp
  next hNe =>
    have hLast : (commit.oid == oid) = false := beq_eq_false_iff_ne.mpr (Ne.symm hNe)
    simp [rowOf, List.findIdx?_cons, hLast]

theorem rowOf_of_not_mem {commits : List Commit} {oid : ObjectId}
    (h : oid ∉ commits.map Commit.oid) : rowOf commits oid = kRowBoundary := by
  have hNone : commits.findIdx? (fun c => c.oid == oid) = none := by
    rw [List.findIdx?_eq_none_iff]
    intro c hc
    rw [beq_eq_false_iff_ne]
    exact fun he => h (he ▸ List.mem_map_of_mem hc)
  rw [rowOf, hNone, Option.getD_none]

/-- The parents of a row are the slice of the pool between its offset and the next one's. -/
theorem GraphSnapshot.parentsOf_slice {s : GraphSnapshot} {row offset stop : Nat}
    (hBegin : s.rows[row]?.map RowMeta.parentOffset = some offset)
    (hEnd : (s.rows[row + 1]?.map RowMeta.parentOffset).getD s.parentPool.length = stop) :
    s.parentsOf row = (s.parentPool.drop offset).take (stop - offset) := by
  obtain ⟨m, hm, rfl⟩ := Option.map_eq_some_iff.mp hBegin
  have hCount : s.parentCountOf row = stop - m.parentOffset := by
    rw [parentCountOf, hm, ← hEnd]
    cases s.rows[row + 1]? <;> rfl
  rw [parentsOf, hm]
  dsimp only
  rw [hCount, Library.Scans.filterMap_range_getElem?]

/-- Where the offsets count the slots above each row, the slots of a row are its own. -/
theorem GraphSnapshot.parentsOf_eq {s : GraphSnapshot} {done : List Commit} {entry : ObjectId → Nat}
    (hOffsets : s.rows.map RowMeta.parentOffset =
      (List.range done.length).map fun row => (parentSlots (done.take row)).length)
    (hPool : s.parentPool = (parentSlots done).map fun slot => entry slot.1)
    {row : Nat} {commit : Commit} (hRow : done[row]? = some commit) :
    s.parentsOf row = commit.parents.map entry := by
  have hLt := (List.getElem?_eq_some_iff.mp hRow).1
  have hTake := parentSlots_take hRow
  obtain ⟨below, hBelow⟩ := parentSlots_prefix (done.take (row + 1)) (done.drop (row + 1))
  rw [List.take_append_drop, hTake] at hBelow
  have hOffset : ∀ r, s.rows[r]?.map RowMeta.parentOffset =
      if r < done.length then some (parentSlots (done.take r)).length else none := by
    intro r
    rw [← List.getElem?_map, hOffsets, List.getElem?_map]
    split
    next hr => rw [List.getElem?_range hr, Option.map_some]
    next hr => rw [List.getElem?_eq_none (by simpa using hr), Option.map_none]
  have hEnd : (s.rows[row + 1]?.map RowMeta.parentOffset).getD s.parentPool.length =
      (parentSlots (done.take (row + 1))).length := by
    rw [hOffset]
    split
    next => rfl
    next hLast =>
      rw [List.take_of_length_le (Nat.le_of_not_lt hLast), hPool]
      exact List.length_map _
  rw [parentsOf_slice ((hOffset row).trans (if_pos hLt)) hEnd, hTake, List.length_append, List.length_map,
    Nat.add_sub_cancel_left, hPool, ← hBelow, List.append_assoc, List.map_append,
    List.drop_left' (List.length_map _), List.map_append, List.take_left' (by simp), List.map_map]
  rfl

namespace GraphBuilder

/-- What a pending edge waits for: the parent, the row of the child and the slot to fill. -/
def awaited (item : ObjectId × PendingEdge) : (ObjectId × Nat) × Nat :=
  ((item.1, item.2.childRow), item.2.parentPoolIndex)

structure Awaiting (done : List Commit) (b : GraphBuilder) : Prop where
  rows : b.built.rows.map RowMeta.parentOffset =
    (List.range done.length).map fun row => (parentSlots (done.take row)).length
  pool : b.built.parentPool = (parentSlots done).map fun slot => rowOf done slot.1
  pending : b.pending.map awaited =
    (parentSlots done).zipIdx.filter fun slot => slot.1.1 ∉ done.map Commit.oid

theorem rowMeta_arrive (b : GraphBuilder) (commit : Commit) (lane : Nat) (lanes : LaneAllocator) :
    (b.arrive commit lane lanes).built.rows =
      b.built.rows ++ [b.rowMeta commit lane (lanes.colorOf lane)] := by
  have hEdges : ((({ b with pending := discard b.pending commit.oid, lanes }).patchIncoming
      (waiting b.pending commit.oid) b.built.rows.length).built.edges).length = b.built.edges.length := by
    apply length_eq_of_getElem?_map
    exact getElem?_patchIncoming _ _ _
  have hPool : ((({ b with pending := discard b.pending commit.oid, lanes }).patchIncoming
      (waiting b.pending commit.oid) b.built.rows.length).built.parentPool).length =
        b.built.parentPool.length := by
    apply length_eq_of_getElem?_map
    exact getElem?_pool_patchIncoming _ _ _
  rw [arrive, releaseOthers_eq, pushRow, rowMeta, rowMeta]
  dsimp only
  rw [hEdges, hPool, patchIncoming_eq]

/-- While the edges of a row are made: the rows and the pool stand, and the first `next` parents
of the row wait, each with its own slot. -/
structure Promised (b : GraphBuilder) (row offset : Nat) (parents : List ObjectId) (next : Nat)
    (b' : GraphBuilder) : Prop where
  rows : b'.built.rows = b.built.rows
  pool : b'.built.parentPool = b.built.parentPool
  pending : b'.pending.map awaited = b.pending.map awaited ++
    ((parents.take next).map fun parent => (parent, row)).zipIdx offset

theorem Promised.connect {b b' : GraphBuilder} {row offset next : Nat} {parents : List ObjectId}
    (h : Promised b row offset parents next b') {parent : ObjectId} (hParent : parents[next]? = some parent)
    (childLane lane : Nat) (color : UInt8) (kind : EdgeKind) (first : Bool) :
    Promised b row offset parents (next + 1)
      (b'.connect parent row childLane lane color kind (offset + next) first) := by
  have hNext : next < parents.length := (List.getElem?_eq_some_iff.mp hParent).1
  refine ⟨h.rows, h.pool, ?_⟩
  rw [pending_connect, List.map_append, h.pending, List.take_add_one, hParent, Option.toList_some,
    List.map_append, List.zipIdx_append, List.append_assoc, List.length_map, List.length_take,
    Nat.min_eq_left hNext.le]
  rfl

theorem promised_descend (b : GraphBuilder) (row lane : Nat) (color : UInt8) (offset : Nat)
    (parents : List ObjectId) :
    Promised b row offset parents parents.length (b.descend row lane color offset parents) := by
  have hNone : Promised b row offset parents 0 b := ⟨rfl, rfl, by simp⟩
  refine descend_steps (motive := Promised b row offset parents) ?_ ?_ ?_
  · intro _
    rw [releaseIfEnded_eq]
    exact ⟨hNone.rows, hNone.pool, hNone.pending⟩
  · intro parent hParent
    exact hNone.connect (by rw [← List.head?_eq_getElem?]; exact hParent) lane lane color .firstParent true
  · intro i b' kind parent _ _ hParent hb
    have hb' : ∀ lanes, Promised b row offset parents i { b' with lanes } :=
      fun _ => ⟨hb.rows, hb.pool, hb.pending⟩
    exact (hb' _).connect hParent lane _ _ kind false

theorem map_awaited_discard (pending : List (ObjectId × PendingEdge)) (key : ObjectId) :
    (discard pending key).map awaited = (pending.map awaited).filter fun slot => slot.1.1 ≠ key := by
  rw [List.filter_map]
  rfl

/-- The slots that the edges to a commit fill are those of the commit. -/
theorem Awaiting.slot_waits {done : List Commit} {b : GraphBuilder} (h : Awaiting done b)
    {oid : ObjectId} (hNew : oid ∉ done.map Commit.oid) {i : Nat} {slot : ObjectId × Nat}
    (hSlot : (parentSlots done)[i]? = some slot) :
    i ∈ (waiting b.pending oid).map PendingEdge.parentPoolIndex ↔ slot.1 = oid := by
  have hMem : ∀ s, s ∈ b.pending.map awaited ↔
      (parentSlots done)[s.2]? = some s.1 ∧ s.1.1 ∉ done.map Commit.oid := by
    intro s
    rw [h.pending, List.mem_filter, List.mem_zipIdx_iff_getElem?, decide_eq_true_eq]
  constructor
  · intro hWait
    obtain ⟨edge, hEdge, rfl⟩ := List.mem_map.mp hWait
    have hThere := ((hMem _).mp (List.mem_map_of_mem (mem_waiting.mp hEdge))).1
    exact congrArg Prod.fst (Option.some.inj (hSlot.symm.trans hThere))
  · rintro rfl
    obtain ⟨⟨key, edge⟩, hItem, hAwaited⟩ := List.mem_map.mp ((hMem (slot, i)).mpr ⟨hSlot, hNew⟩)
    obtain ⟨rfl, rfl⟩ := Prod.mk.inj hAwaited
    exact List.mem_map.mpr ⟨edge, mem_waiting.mpr hItem, rfl⟩

theorem Awaiting.pool_emit {done : List Commit} {b : GraphBuilder} (h : Awaiting done b) {commit : Commit}
    (hRows : b.built.rows.length = done.length) (hNew : commit.oid ∉ done.map Commit.oid)
    (hParents : ∀ parent ∈ commit.parents, parent ∉ (done ++ [commit]).map Commit.oid)
    (lane : Nat) (lanes : LaneAllocator) :
    (b.arrive commit lane lanes).built.parentPool =
      (parentSlots (done ++ [commit])).map fun slot => rowOf (done ++ [commit]) slot.1 := by
  obtain ⟨patched, hPool, hPatched⟩ := pool_arrive b commit lane lanes
  rw [hPool, parentSlots_append, List.map_append]
  congr 1
  · apply List.ext_getElem?
    intro i
    rw [hPatched, h.pool, List.getElem?_map, List.getElem?_map, Option.map_map]
    cases hSlot : (parentSlots done)[i]? with
    | none => rfl
    | some slot =>
      simp only [Option.map_some, Function.comp, rowOf_append done commit hNew, hRows,
        h.slot_waits hNew hSlot]
  · rw [List.map_map, eq_comm, List.eq_replicate_iff, List.length_map]
    refine ⟨rfl, ?_⟩
    intro row hRow
    obtain ⟨parent, hParent, rfl⟩ := List.mem_map.mp hRow
    exact rowOf_of_not_mem (hParents parent hParent)

theorem Awaiting.emit {done : List Commit} {b : GraphBuilder} (h : Awaiting done b) {commit : Commit}
    (hRows : b.built.rows.length = done.length) (hNew : commit.oid ∉ done.map Commit.oid)
    (hParents : ∀ parent ∈ commit.parents, parent ∉ (done ++ [commit]).map Commit.oid) :
    Awaiting (done ++ [commit]) (b.emit commit) := by
  obtain ⟨lane, lanes, -, hEmit⟩ := emit_eq b commit
  have hSlots : b.built.parentPool.length = (parentSlots done).length := by
    rw [h.pool, List.length_map]
  obtain ⟨hKeptRows, hKeptPool, hPending⟩ := promised_descend (b.arrive commit lane lanes)
    b.built.rows.length lane (lanes.colorOf lane) b.built.parentPool.length commit.parents
  rw [hEmit]
  constructor
  · refine (congrArg (List.map RowMeta.parentOffset) hKeptRows).trans ?_
    rw [rowMeta_arrive, List.map_append, h.rows, List.length_append, List.length_singleton,
      List.range_succ, List.map_append]
    congr 1
    · apply List.map_congr_left
      intro row hRow
      rw [List.take_append_of_le_length (List.mem_range.mp hRow).le]
    · rw [List.map_singleton, List.map_singleton, List.take_left']
      · exact congrArg (fun n => [n]) hSlots
      · rfl
  · exact hKeptPool.trans (h.pool_emit hRows hNew hParents lane lanes)
  · refine hPending.trans ?_
    rw [List.take_length, pending_arrive, hRows, hSlots, map_awaited_discard, h.pending,
      List.filter_filter, parentSlots_append, List.zipIdx_append, List.filter_append]
    congr 1
    · apply List.filter_congr
      intro slot _
      rw [Bool.eq_iff_iff, Bool.and_eq_true]
      simp only [decide_eq_true_eq, List.map_append, List.mem_append, List.map_singleton,
        List.mem_singleton, not_or, and_comm]
    · rw [eq_comm, Nat.zero_add, List.filter_eq_self]
      rintro ⟨⟨parent, row⟩, i⟩ hMem
      obtain ⟨parent, hParent, he⟩ := List.mem_map.mp (List.fst_mem_of_mem_zipIdx hMem)
      obtain ⟨rfl, rfl⟩ := Prod.mk.inj he
      exact decide_eq_true (hParents parent hParent)

theorem awaiting_walk (options : GraphOptions) {commits : List Commit}
    (hNodup : (commits.map Commit.oid).Nodup) (hOrder : ChildrenFirst commits) :
    Awaiting (commits.take options.maxRows.toNat) (walk options commits) := by
  refine walk_induction (motive := Awaiting) options commits ⟨rfl, rfl, rfl⟩ ?_ ?_
  · exact fun _ _ h => ⟨h.rows, h.pool, h.pending⟩
  · intro done commit b hPrefix _ _ hRows _ h
    exact h.emit hRows (not_mem_done hNodup hPrefix) (hOrder.of_prefix hPrefix).parents_not_mem

/-- Finishing changes the flags of a row only. -/
theorem map_rows_finish {β : Type} {field : RowMeta → β} (hField : ∀ m flags, field { m with flags } = field m)
    (b : GraphBuilder) : b.finish.snapshot.rows.map field = b.built.rows.map field := by
  apply List.ext_getElem?
  intro row
  change (List.map _ (b.pending.foldl (fun rows item => markBoundary rows item.2) b.built.rows))[row]? = _
  rw [List.getElem?_map, List.getElem?_map, getElem?_markBoundary, Option.map_map]
  congr 1
  funext m
  rw [Function.comp, withBoundary]
  split
  · exact hField m _
  · rfl

/-- However wide a merge is, however often it lists a parent and wherever the walk ends, the
finished snapshot gives each parent its row, and an open end if it was not emitted. -/
theorem parents_exact (options : GraphOptions) (commits : List Commit)
    (hNodup : (commits.map Commit.oid).Nodup) (hOrder : ChildrenFirst commits) (row : Nat)
    (commit : Commit) (hRow : (commits.take options.maxRows.toNat)[row]? = some commit) :
    (walk options commits).finish.snapshot.parentsOf row =
      commit.parents.map (rowOf (commits.take options.maxRows.toNat)) := by
  have h := awaiting_walk options hNodup hOrder
  generalize commits.take options.maxRows.toNat = done at hRow h ⊢
  exact GraphSnapshot.parentsOf_eq ((map_rows_finish (fun _ _ => rfl) _).trans h.rows) h.pool hRow

/-- A merge that lists one parent twice and another that is never emitted. -/
def wideMerge : List Commit :=
  [{ oid := .replicate 4, parents := [.replicate 2, .replicate 3, .replicate 2, .replicate 9] },
    { oid := .replicate 3, parents := [.replicate 2] }, { oid := .replicate 2 }]

theorem parents_exact_octopus : (walk {} wideMerge).finish.snapshot.parentsOf 0 =
    [.replicate 2, .replicate 3, .replicate 2, .replicate 9].map
      (rowOf (wideMerge.take ({} : GraphOptions).maxRows.toNat)) :=
  parents_exact {} wideMerge (by decide +kernel) (by decide +kernel) 0 _ rfl

end GraphBuilder

end GitBranchManager
