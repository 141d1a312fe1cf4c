import GitBranchManager.Graph.BuilderSteps
import GitBranchManager.Library.Scans
import Mathlib.Data.List.Nodup

/-! # Which edges meet a range of rows

The core keeps, for every 64 rows, the first edge that may still be open there, and scans on from it.
The view keeps the edges that are open at the first of every 64 rows and those that start at each row.
-/

namespace GitBranchManager

/-- A boundary is drawn one row down. Row numbers are below `kRowBoundary`, so nothing wraps around. -/
def Edge.lastRow (e : Edge) : Nat := if e.parentRow = kRowBoundary then e.childRow + 1 else e.parentRow

def Edge.spans (e : Edge) (row : Nat) : Bool := e.childRow ≤ row && row ≤ e.lastRow

namespace GraphSnapshot

def kBucketRows : Nat := 64

/-- The widest lane of the rows in `[start, stop)`, or the one before if that is wider. -/
def widen (rows : List RowMeta) (start stop widest : Nat) : Nat :=
  ((rows.take stop).drop start).foldl (fun widest m => max widest m.lane) widest

end GraphSnapshot

/-- A snapshot with its indices. Row numbers are `UInt32`: where the end of a bucket is computed, it
may wrap around. -/
structure IndexedSnapshot extends GraphSnapshot where
  edgeBucket : List Nat
  bucketMaxLane : List Nat

namespace GraphSnapshot

/-- The loop over the buckets, from the edge that the bucket before starts at. -/
def fillBuckets (s : GraphSnapshot) (edgeIndex : Nat) : List Nat → List (Nat × Nat)
  | [] => []
  | bucket :: buckets =>
    let bucketStart := bucket * kBucketRows
    let edgeIndex :=
      edgeIndex + ((s.edges.drop edgeIndex).takeWhile fun e => e.lastRow < bucketStart).length
    let bucketEnd := min ((bucketStart + kBucketRows) % 2 ^ 32) s.rows.length
    (edgeIndex, widen s.rows bucketStart bucketEnd 0) :: s.fillBuckets edgeIndex buckets

def finalizeIndices (s : GraphSnapshot) : IndexedSnapshot :=
  let bucketCount := if s.rows.isEmpty then 1 else s.rows.length / kBucketRows + 1
  let buckets := s.fillBuckets 0 (List.range bucketCount)
  { s with edgeBucket := buckets.map Prod.fst, bucketMaxLane := buckets.map Prod.snd }

end GraphSnapshot

namespace IndexedSnapshot

open GraphSnapshot (kBucketRows widen)

def edgesInRange (s : IndexedSnapshot) (firstRow lastRow : Nat) : List Edge :=
  if s.edges.isEmpty || s.rows.isEmpty || lastRow < firstRow then []
  else
    let bucket := min (firstRow / kBucketRows) (s.edgeBucket.length - 1)
    let index := s.edgeBucket.getD bucket 0
    ((s.edges.drop index).takeWhile fun e => e.childRow ≤ lastRow).filter fun e => firstRow ≤ e.lastRow

/-- One bucket of a range: whole, or row by row. -/
def widenBucket (s : IndexedSnapshot) (firstRow lastRow widest bucket : Nat) : Nat :=
  let bucketStart := bucket * kBucketRows
  let bucketEnd := (bucketStart + kBucketRows - 1) % 2 ^ 32
  if firstRow ≤ bucketStart ∧ bucketEnd ≤ lastRow then max widest (s.bucketMaxLane.getD bucket 0)
  else widen s.rows (max bucketStart firstRow) (min bucketEnd lastRow + 1) widest

def maxLaneInRange (s : IndexedSnapshot) (firstRow lastRow : Nat) : Nat :=
  if s.rows.isEmpty then 0
  else
    let lastRow := min lastRow (s.rows.length - 1)
    if lastRow < firstRow then 0
    else
      let firstBucket := firstRow / kBucketRows
      let lastBucket := lastRow / kBucketRows
      let buckets := (List.range' firstBucket (lastBucket + 1 - firstBucket)).takeWhile
        fun bucket => bucket < s.bucketMaxLane.length
      (s.edgesInRange firstRow lastRow).foldl (fun widest e => max widest (max e.lane e.childLane))
        (buckets.foldl (s.widenBucket firstRow lastRow) 0)

end IndexedSnapshot

/-! ## The full scan -/

/-- A row of the range is one of the edge's. -/
def Edge.Meets (e : Edge) (firstRow lastRow : Nat) : Prop :=
  ∃ row, firstRow ≤ row ∧ row ≤ lastRow ∧ e.spans row = true

theorem Edge.meets_iff {e : Edge} {firstRow lastRow : Nat} :
    e.Meets firstRow lastRow ↔ max firstRow e.childRow ≤ min lastRow e.lastRow := by
  simp only [Meets, spans, Bool.and_eq_true, decide_eq_true_eq]
  constructor
  · rintro ⟨row, hFirst, hLast, hChild, hEnd⟩
    omega
  · intro hMeets
    exact ⟨max firstRow e.childRow, by omega⟩

instance (e : Edge) (firstRow lastRow : Nat) : Decidable (e.Meets firstRow lastRow) :=
  decidable_of_iff _ Edge.meets_iff.symm

namespace GraphSnapshot

def edgesMeeting (s : GraphSnapshot) (firstRow lastRow : Nat) : List Edge :=
  s.edges.filter fun e => e.Meets firstRow lastRow

/-- The lanes of the rows in the range and of the edges that meet it. -/
def lanesInRange (s : GraphSnapshot) (firstRow lastRow : Nat) : List Nat :=
  ((s.rows.take (lastRow + 1)).drop firstRow).map RowMeta.lane ++
    (s.edgesMeeting firstRow lastRow).flatMap fun e => [e.lane, e.childLane]

end GraphSnapshot

/-! ## What the builder keeps of the edges -/

namespace GraphBuilder

/-- Any adds, with `finish` anywhere between them. -/
inductive Reached (options : GraphOptions) : GraphBuilder → Prop
  | new : Reached options (new options)
  | add {b : GraphBuilder} (h : Reached options b) (commit : Commit) : Reached options (b.add commit)
  | finish {b : GraphBuilder} (h : Reached options b) : Reached options b.finish

theorem reached_walk (options : GraphOptions) (commits : List Commit) : Reached options (walk options commits) := by
  rw [walk]
  induction commits using List.reverseRecOn with
  | nil => exact .new
  | append_singleton commits commit ih =>
    rw [List.foldl_append]
    exact ih.add commit

/-- The edges come in the order of their children, each ends below its child, and all children have
been emitted. -/
structure ByChildRow (rows : Nat) (edges : List Edge) : Prop where
  sorted : edges.Pairwise fun e e' => e.childRow ≤ e'.childRow
  below : ∀ e ∈ edges, e.childRow ≤ e.lastRow
  child : ∀ e ∈ edges, e.childRow < rows

namespace ByChildRow

variable {rows : Nat} {edges edges' : List Edge}

/-- Edges whose parents change stay in order. -/
theorem of_children (h : ByChildRow rows edges) (hChildren : edges'.map Edge.childRow = edges.map Edge.childRow)
    (hBelow : ∀ e ∈ edges', e.childRow ≤ e.lastRow) : ByChildRow rows edges' := by
  have hSorted : (edges.map Edge.childRow).Pairwise (· ≤ ·) := List.pairwise_map.mpr h.sorted
  have hChild : ∀ row ∈ edges.map Edge.childRow, row < rows := List.forall_mem_map.mpr h.child
  rw [← hChildren] at hSorted hChild
  exact ⟨List.pairwise_map.mp hSorted, hBelow, List.forall_mem_map.mp hChild⟩

theorem push (h : ByChildRow (rows + 1) edges) {e : Edge} (hChild : e.childRow = rows)
    (hParent : e.parentRow = kRowBoundary) : ByChildRow (rows + 1) (edges ++ [e]) := by
  constructor
  · rw [List.pairwise_append]
    refine ⟨h.sorted, List.pairwise_singleton _ _, fun e₀ hMem e' hNew => ?_⟩
    rw [List.mem_singleton.mp hNew, hChild]
    exact Nat.le_of_lt_succ (h.child e₀ hMem)
  · rw [List.forall_mem_append]
    refine ⟨h.below, List.forall_mem_singleton.mpr ?_⟩
    rw [Edge.lastRow, if_pos hParent]
    omega
  · rw [List.forall_mem_append]
    refine ⟨h.child, List.forall_mem_singleton.mpr ?_⟩
    omega

theorem reopen (h : ByChildRow rows edges) (pending : List (ObjectId × PendingEdge)) :
    ByChildRow rows (pending.foldl (fun edges item => GraphBuilder.reopen edges item.2) edges) := by
  have hChildren : ∀ edges : List Edge,
      (pending.foldl (fun edges item => GraphBuilder.reopen edges item.2) edges).map Edge.childRow =
        edges.map Edge.childRow := by
    induction pending with
    | nil => exact fun _ => rfl
    | cons item pending ih =>
      intro edges
      rw [List.foldl_cons, ih, GraphBuilder.reopen]
      apply List.ext_getElem?
      intro i
      rw [List.getElem?_map, List.getElem?_map, List.getElem?_modify]
      cases edges[i]? with
      | none => rfl
      | some e =>
        simp only [Option.map_eq_map, Option.map_some]
        split <;> rfl
  apply h.of_children (hChildren edges)
  intro e hMem
  obtain ⟨e₀, hOld, rfl | rfl⟩ := mem_foldl_reopen hMem
  · exact h.below e hOld
  · exact Nat.le_succ _

end ByChildRow

theorem byChildRow_arrive {b : GraphBuilder} (h : ByChildRow b.built.rows.length b.built.edges) (commit : Commit)
    (lane : Nat) (lanes : LaneAllocator) :
    ByChildRow (b.built.rows.length + 1) (b.arrive commit lane lanes).built.edges := by
  have hWider : ByChildRow (b.built.rows.length + 1) b.built.edges :=
    ⟨h.sorted, h.below, fun e hMem => Nat.lt_succ_of_lt (h.child e hMem)⟩
  apply hWider.of_children
  · apply List.ext_getElem?
    intro i
    rw [List.getElem?_map, List.getElem?_map, getElem?_edges_arrive, Option.map_map]
    refine Option.map_congr fun e _ => ?_
    dsimp only [Function.comp]
    split <;> rfl
  · intro e hMem
    obtain ⟨e₀, hOld, rfl | ⟨edge, -, -, rfl⟩⟩ := mem_edges_arrive b commit lane lanes hMem
    · exact h.below e hOld
    · have hChild := h.child e₀ hOld
      rw [Edge.lastRow]
      dsimp only
      split <;> omega

theorem byChildRow_emit {b : GraphBuilder} (h : ByChildRow b.built.rows.length b.built.edges) (commit : Commit) :
    ByChildRow (b.emit commit).built.rows.length (b.emit commit).built.edges := by
  rw [length_rows_emit]
  obtain ⟨lane, lanes, -, hEmit⟩ := emit_eq b commit
  have hArrive := byChildRow_arrive h commit lane lanes
  rw [hEmit, recordLaneCount]
  dsimp only
  refine descend_induction (motive := fun b' => ByChildRow (b.built.rows.length + 1) b'.built.edges) ?_ ?_ ?_
  · intro _
    rw [releaseIfEnded_eq]
    exact hArrive
  · exact fun _ _ => hArrive.push rfl rfl
  · exact fun _ _ _ _ _ hb => hb.push rfl rfl

theorem length_rows_finish (b : GraphBuilder) : b.finish.built.rows.length = b.built.rows.length := by
  rw [finish]
  dsimp only
  generalize b.built.rows = rows
  induction b.pending generalizing rows with
  | nil => rfl
  | cons item pending ih => rw [List.foldl_cons, ih, markBoundary, List.length_modify]

theorem reached_byChildRow {options : GraphOptions} {b : GraphBuilder} (h : Reached options b) :
    b.options = options ∧ b.built.rows.length ≤ options.maxRows.toNat ∧
      ByChildRow b.built.rows.length b.built.edges := by
  induction h with
  | new => exact ⟨rfl, Nat.zero_le _, .nil, nofun, nofun⟩
  | @add b _ commit ih =>
    obtain ⟨hOptions, hRows, hEdges⟩ := ih
    rw [add]
    split
    next => exact ⟨hOptions, hRows, hEdges⟩
    next hRoom =>
      refine ⟨(options_emit b commit).trans hOptions, ?_, byChildRow_emit hEdges commit⟩
      rw [length_rows_emit, ← hOptions]
      omega
  | @finish b _ ih =>
    obtain ⟨hOptions, hRows, hEdges⟩ := ih
    rw [length_rows_finish]
    exact ⟨hOptions, hRows, hEdges.reopen b.pending⟩

theorem byChildRow_snapshot {options : GraphOptions} {b : GraphBuilder} (h : Reached options b) :
    b.snapshot.rows.length < 2 ^ 32 ∧ ByChildRow b.snapshot.rows.length b.snapshot.edges := by
  obtain ⟨-, hRows, hEdges⟩ := reached_byChildRow h
  refine ⟨Nat.lt_of_le_of_lt hRows options.maxRows.toNat_lt, ?_⟩
  rw [snapshot]
  dsimp only
  split
  · exact hEdges
  · exact hEdges.reopen b.pending

end GraphBuilder

/-! ## What the buckets hold -/

namespace GraphSnapshot

variable {s : GraphSnapshot}

theorem length_fillBuckets (s : GraphSnapshot) (edgeIndex : Nat) (buckets : List Nat) :
    (s.fillBuckets edgeIndex buckets).length = buckets.length := by
  induction buckets generalizing edgeIndex with
  | nil => rfl
  | cons bucket buckets ih => rw [fillBuckets, List.length_cons, ih, List.length_cons]

/-- All edges before the one a bucket starts at end above the bucket: the loop passes only such edges,
and later buckets start lower. -/
theorem fillBuckets_spec {start count edgeIndex : Nat}
    (hAbove : ∀ e ∈ s.edges.take edgeIndex, e.lastRow < start * kBucketRows) {i index widest : Nat}
    (hAt : (s.fillBuckets edgeIndex (List.range' start count))[i]? = some (index, widest)) :
    (∀ e ∈ s.edges.take index, e.lastRow < (start + i) * kBucketRows) ∧
      widest = widen s.rows ((start + i) * kBucketRows)
        (min (((start + i) * kBucketRows + kBucketRows) % 2 ^ 32) s.rows.length) 0 := by
  induction count generalizing start edgeIndex i with
  | zero => cases hAt
  | succ count ih =>
    rw [List.range'_succ, fillBuckets] at hAt
    have hPassed : ∀ e ∈ s.edges.take (edgeIndex +
        ((s.edges.drop edgeIndex).takeWhile fun e => e.lastRow < start * kBucketRows).length),
        e.lastRow < start * kBucketRows := by
      intro e hMem
      rw [List.take_add, List.mem_append] at hMem
      rcases hMem with hBefore | hNow
      · exact hAbove e hBefore
      · rw [← List.prefix_iff_eq_take.mp (List.takeWhile_prefix _)] at hNow
        have hEnd := List.mem_takeWhile_imp hNow
        exact of_decide_eq_true hEnd
    cases i with
    | zero =>
      obtain ⟨rfl, rfl⟩ := Prod.mk.inj (Option.some.inj hAt)
      exact ⟨hPassed, rfl⟩
    | succ i =>
      have hLower : start * kBucketRows ≤ (start + 1) * kBucketRows :=
        Nat.mul_le_mul_right kBucketRows (Nat.le_succ start)
      have hRest := ih (fun e hMem => Nat.lt_of_lt_of_le (hPassed e hMem) hLower) hAt
      rwa [Nat.add_assoc, Nat.add_comm 1 i] at hRest

theorem length_bucketMaxLane (s : GraphSnapshot) :
    s.finalizeIndices.bucketMaxLane.length = s.rows.length / kBucketRows + 1 := by
  rw [finalizeIndices]
  dsimp only
  rw [List.length_map, length_fillBuckets, List.length_range]
  cases s.rows with
  | nil => rfl
  | cons => rfl

theorem edgeBucket_above (s : GraphSnapshot) (bucket : Nat) :
    ∀ e ∈ s.edges.take (s.finalizeIndices.edgeBucket.getD bucket 0), e.lastRow < bucket * kBucketRows := by
  rw [finalizeIndices, List.range_eq_range']
  dsimp only
  rw [List.getD_eq_getElem?_getD, List.getElem?_map]
  generalize hAt : (s.fillBuckets 0 _)[bucket]? = entry
  cases entry with
  | none => exact nofun
  | some entry =>
    have hSpec := (fillBuckets_spec (by simp) hAt).1
    rwa [Nat.zero_add] at hSpec

theorem bucketMaxLane_eq (s : GraphSnapshot) {bucket : Nat} (h : bucket < s.finalizeIndices.bucketMaxLane.length) :
    s.finalizeIndices.bucketMaxLane.getD bucket 0 = widen s.rows (bucket * kBucketRows)
      (min ((bucket * kBucketRows + kBucketRows) % 2 ^ 32) s.rows.length) 0 := by
  have hSome := List.getElem?_eq_getElem h
  rw [List.getD_eq_getElem?_getD]
  revert hSome
  generalize s.finalizeIndices.bucketMaxLane[bucket] = widest
  intro hSome
  rw [hSome, Option.getD_some]
  rw [finalizeIndices, List.range_eq_range'] at hSome
  dsimp only at hSome
  rw [List.getElem?_map, Option.map_eq_some_iff] at hSome
  obtain ⟨⟨index, widest⟩, hAt, rfl⟩ := hSome
  have hSpec := (fillBuckets_spec (by simp) hAt).2
  rwa [Nat.zero_add] at hSpec

end GraphSnapshot

/-! ## Ranges -/

namespace IndexedSnapshot

open GraphSnapshot (kBucketRows widen length_bucketMaxLane bucketMaxLane_eq edgeBucket_above)

theorem widen_le {rows : List RowMeta} {start stop widest n : Nat} :
    widen rows start stop widest ≤ n ↔
      widest ≤ n ∧ ∀ row m, rows[row]? = some m → start ≤ row → row < stop → m.lane ≤ n := by
  rw [widen, Library.Scans.foldl_max_le]
  apply and_congr_right
  intro _
  constructor
  · intro hAll row m hAt hStart hStop
    exact hAll m (Library.Scans.mem_drop_take.mpr ⟨row, hStart, hStop, hAt⟩)
  · intro hAll m hMem
    obtain ⟨row, hStart, hStop, hAt⟩ := Library.Scans.mem_drop_take.mp hMem
    exact hAll row m hAt hStart hStop

variable {s : GraphSnapshot} {firstRow lastRow widest n : Nat}

/-- A whole bucket is looked up, the others are gone through. A whole bucket ends before the last row,
so that its end does not wrap around. -/
theorem widenBucket_le (hRows : s.rows.length < 2 ^ 32) (hLast : lastRow < s.rows.length) {bucket : Nat}
    (hBucket : bucket < s.finalizeIndices.bucketMaxLane.length) :
    s.finalizeIndices.widenBucket firstRow lastRow widest bucket ≤ n ↔
      widest ≤ n ∧ ∀ row m, s.rows[row]? = some m → firstRow ≤ row → row ≤ lastRow →
        row / kBucketRows = bucket → m.lane ≤ n := by
  have hLess := hBucket
  rw [length_bucketMaxLane] at hLess
  rw [widenBucket, bucketMaxLane_eq s hBucket]
  split
  next hWhole =>
    simp only [kBucketRows] at hLess hWhole ⊢
    have hStop : (bucket * 64 + 64) % 2 ^ 32 = bucket * 64 + 64 := by omega
    rw [hStop, Nat.max_le, widen_le]
    apply and_congr_right
    intro _
    constructor
    · intro hAll row m hAt hFirst hRow hIn
      exact hAll.2 row m hAt (by omega) (by omega)
    · intro hAll
      refine ⟨Nat.zero_le n, fun row m hAt hStart hRow => ?_⟩
      exact hAll row m hAt (by omega) (by omega) (by omega)
  next =>
    have hSame : s.finalizeIndices.rows = s.rows := rfl
    rw [hSame, widen_le]
    simp only [kBucketRows] at hLess ⊢
    apply and_congr_right
    intro _
    constructor
    · intro hAll row m hAt hFirst hRow hIn
      exact hAll row m hAt (by omega) (by omega)
    · intro hAll row m hAt hStart hRow
      exact hAll row m hAt (by omega) (by omega) (by omega)

theorem foldl_widenBucket_le (hRows : s.rows.length < 2 ^ 32) (hLast : lastRow < s.rows.length) {buckets : List Nat}
    (hBuckets : ∀ bucket ∈ buckets, bucket < s.finalizeIndices.bucketMaxLane.length) :
    buckets.foldl (s.finalizeIndices.widenBucket firstRow lastRow) widest ≤ n ↔
      widest ≤ n ∧ ∀ bucket ∈ buckets, ∀ row m, s.rows[row]? = some m → firstRow ≤ row →
        row ≤ lastRow → row / kBucketRows = bucket → m.lane ≤ n := by
  induction buckets generalizing widest with
  | nil => exact (and_iff_left nofun).symm
  | cons bucket buckets ih =>
    obtain ⟨hFirst, hRest⟩ := List.forall_mem_cons.mp hBuckets
    rw [List.foldl_cons, ih hRest, widenBucket_le hRows hLast hFirst, List.forall_mem_cons, and_assoc]

end IndexedSnapshot

namespace GraphBuilder.ByChildRow

open GraphSnapshot (kBucketRows length_bucketMaxLane edgeBucket_above edgesMeeting lanesInRange)
open IndexedSnapshot (foldl_widenBucket_le)

variable {s : GraphSnapshot} {firstRow lastRow : Nat}

theorem edgesInRange_eq (h : ByChildRow s.rows.length s.edges) (firstRow lastRow : Nat) :
    s.finalizeIndices.edgesInRange firstRow lastRow = s.edgesMeeting firstRow lastRow := by
  have hFields : s.finalizeIndices.edges = s.edges ∧ s.finalizeIndices.rows = s.rows := ⟨rfl, rfl⟩
  rw [IndexedSnapshot.edgesInRange, edgesMeeting, hFields.1, hFields.2]
  split
  next hNone =>
    symm
    rw [List.filter_eq_nil_iff]
    intro e hMem hMeets
    have hChild := h.child e hMem
    have hRange := Edge.meets_iff.mp (of_decide_eq_true hMeets)
    simp only [Bool.or_eq_true, List.isEmpty_iff, decide_eq_true_eq] at hNone
    rcases hNone with (hEdges | hRows) | hEmpty
    · rw [hEdges] at hMem
      cases hMem
    · rw [hRows] at hChild
      cases hChild
    · omega
  next hSome =>
    simp only [Bool.or_eq_true, List.isEmpty_iff, decide_eq_true_eq, not_or] at hSome
    -- the bucket starts at or above the first row, and all it skips ends above the bucket
    generalize hBucket : min (firstRow / kBucketRows) _ = bucket
    have hStart : bucket * kBucketRows ≤ firstRow :=
      Nat.le_trans (Nat.mul_le_mul_right _ (hBucket ▸ Nat.min_le_left _ _)) (Nat.div_mul_le_self _ _)
    have hSkipped : ∀ e ∈ s.edges.take (s.finalizeIndices.edgeBucket.getD bucket 0),
        decide (firstRow ≤ e.lastRow) = false := by
      intro e hMem
      have hAbove := edgeBucket_above s bucket e hMem
      exact decide_eq_false (by omega)
    rw [Library.Scans.filter_scan h.sorted hSkipped]
    apply List.filter_congr
    intro e hMem
    have hBelow := h.below e hMem
    rw [← Bool.decide_and, decide_eq_decide, Edge.meets_iff]
    omega

theorem mem_lanesInRange {lane : Nat} : lane ∈ s.lanesInRange firstRow lastRow ↔
    (∃ row m, s.rows[row]? = some m ∧ firstRow ≤ row ∧ row ≤ lastRow ∧ m.lane = lane) ∨
      ∃ e ∈ s.edgesMeeting firstRow lastRow, lane = e.lane ∨ lane = e.childLane := by
  rw [lanesInRange, List.mem_append, List.mem_map, List.mem_flatMap]
  apply or_congr
  · constructor
    · rintro ⟨m, hMem, hLane⟩
      obtain ⟨row, hStart, hStop, hAt⟩ := Library.Scans.mem_drop_take.mp hMem
      exact ⟨row, m, hAt, hStart, Nat.le_of_lt_succ hStop, hLane⟩
    · rintro ⟨row, m, hAt, hStart, hStop, hLane⟩
      exact ⟨m, Library.Scans.mem_drop_take.mpr ⟨row, hStart, Nat.lt_succ_of_le hStop, hAt⟩, hLane⟩
  · simp only [List.mem_cons, List.not_mem_nil, or_false]

/-- All children have rows: past the last row, a range meets the edges it would meet without it. -/
theorem edgesMeeting_clamp (h : ByChildRow s.rows.length s.edges) (hFirst : firstRow < s.rows.length) :
    s.edgesMeeting firstRow (min lastRow (s.rows.length - 1)) = s.edgesMeeting firstRow lastRow := by
  apply List.filter_congr
  intro e hMem
  have hChild := h.child e hMem
  rw [decide_eq_decide, Edge.meets_iff, Edge.meets_iff]
  omega

theorem maxLaneInRange_eq (h : ByChildRow s.rows.length s.edges) (hRows : s.rows.length < 2 ^ 32)
    (hFirst : firstRow < s.rows.length) (hRange : firstRow ≤ lastRow) :
    s.finalizeIndices.maxLaneInRange firstRow lastRow = (s.lanesInRange firstRow lastRow).foldl max 0 := by
  apply eq_of_forall_ge_iff
  intro n
  have hFields : s.finalizeIndices.rows = s.rows := rfl
  have hSome : s.rows.isEmpty = false := by
    rw [List.isEmpty_eq_false_iff_exists_mem]
    exact ⟨_, List.getElem_mem hFirst⟩
  rw [IndexedSnapshot.maxLaneInRange, hFields, hSome, if_neg Bool.false_ne_true]
  dsimp only
  have hLast : min lastRow (s.rows.length - 1) < s.rows.length := by omega
  have hBuckets : ∀ bucket ∈ List.range' (firstRow / kBucketRows)
      (min lastRow (s.rows.length - 1) / kBucketRows + 1 - firstRow / kBucketRows),
      bucket < s.finalizeIndices.bucketMaxLane.length := by
    intro bucket hMem
    rw [List.mem_range'_1] at hMem
    rw [length_bucketMaxLane]
    simp only [kBucketRows] at hMem ⊢
    omega
  have hLanes : (s.lanesInRange firstRow lastRow).foldl max 0 ≤ n ↔
      0 ≤ n ∧ ∀ lane ∈ s.lanesInRange firstRow lastRow, lane ≤ n := Library.Scans.foldl_max_le (f := id)
  rw [if_neg (by omega), List.takeWhile_eq_self_iff.mpr fun bucket hMem => decide_eq_true (hBuckets bucket hMem),
    Library.Scans.foldl_max_le, h.edgesInRange_eq, h.edgesMeeting_clamp hFirst,
    foldl_widenBucket_le hRows hLast hBuckets, hLanes]
  constructor
  · rintro ⟨⟨hZero, hRow⟩, hEdge⟩
    refine ⟨hZero, fun lane hMem => ?_⟩
    rcases mem_lanesInRange.mp hMem with ⟨row, m, hAt, hStart, hStop, rfl⟩ | ⟨e, hMeets, hLane⟩
    · obtain ⟨hLess, -⟩ := List.getElem?_eq_some_iff.mp hAt
      have hIn : row / kBucketRows ∈ List.range' (firstRow / kBucketRows)
          (min lastRow (s.rows.length - 1) / kBucketRows + 1 - firstRow / kBucketRows) := by
        rw [List.mem_range'_1]
        simp only [kBucketRows]
        omega
      exact hRow _ hIn row m hAt hStart (by omega) rfl
    · have hWide := hEdge e hMeets
      rcases hLane with rfl | rfl
      · exact le_of_max_le_left hWide
      · exact le_of_max_le_right hWide
  · rintro ⟨hZero, hLane⟩
    refine ⟨⟨hZero, fun _ _ row m hAt hStart hStop _ => ?_⟩, fun e hMeets => ?_⟩
    · exact hLane _ (mem_lanesInRange.mpr (.inl ⟨row, m, hAt, hStart, by omega, rfl⟩))
    · apply max_le
      · exact hLane _ (mem_lanesInRange.mpr (.inr ⟨e, hMeets, .inl rfl⟩))
      · exact hLane _ (mem_lanesInRange.mpr (.inr ⟨e, hMeets, .inr rfl⟩))

/-- A range without rows. -/
theorem lanesInRange_empty (s : GraphSnapshot) (hRange : lastRow < firstRow) :
    s.lanesInRange firstRow lastRow = [] := by
  have hNone : s.edgesMeeting firstRow lastRow = [] := by
    rw [edgesMeeting, List.filter_eq_nil_iff]
    intro e _ hMeets
    have hRow := Edge.meets_iff.mp (of_decide_eq_true hMeets)
    omega
  have hRows : (s.rows.take (lastRow + 1)).drop firstRow = [] := by
    rw [List.drop_eq_nil_iff, List.length_take]
    omega
  rw [lanesInRange, hNone, hRows]
  rfl

end GraphBuilder.ByChildRow

namespace GraphBuilder

open ByChildRow (lanesInRange_empty)

/-- The queries of whatever the builder publishes, against a scan of all its edges and rows. Past the last
row there may still be a stub of a boundary, but no lane. -/
theorem range_queries_eq_scan {options : GraphOptions} {b : GraphBuilder} (h : Reached options b)
    (firstRow lastRow : Nat) :
    b.snapshot.finalizeIndices.edgesInRange firstRow lastRow = b.snapshot.edgesMeeting firstRow lastRow ∧
      b.snapshot.finalizeIndices.maxLaneInRange firstRow lastRow =
        if b.snapshot.rows.length ≤ firstRow then 0
        else (b.snapshot.lanesInRange firstRow lastRow).foldl max 0 := by
  obtain ⟨hRows, hEdges⟩ := byChildRow_snapshot h
  refine ⟨hEdges.edgesInRange_eq firstRow lastRow, ?_⟩
  rcases Nat.lt_or_ge lastRow firstRow with hEmpty | hRange
  · have hZero : b.snapshot.finalizeIndices.maxLaneInRange firstRow lastRow = 0 := by
      rw [IndexedSnapshot.maxLaneInRange]
      dsimp only
      rw [if_pos (Nat.lt_of_le_of_lt (Nat.min_le_left _ _) hEmpty), ite_self]
    rw [hZero, lanesInRange_empty _ hEmpty]
    exact (ite_self 0).symm
  · rcases Nat.lt_or_ge firstRow b.snapshot.rows.length with hFirst | hPast
    · rw [if_neg (Nat.not_le_of_lt hFirst), hEdges.maxLaneInRange_eq hRows hFirst hRange]
    · have hFields : b.snapshot.finalizeIndices.rows = b.snapshot.rows := rfl
      rw [if_pos hPast, IndexedSnapshot.maxLaneInRange, hFields]
      split
      next => rfl
      next hSome =>
        have hPos : 0 < b.snapshot.rows.length := by
          rw [List.length_pos_iff]
          exact fun hNil => hSome (hNil ▸ rfl)
        dsimp only
        rw [if_pos (by omega)]

/-- Two branch tips whose parents are outside the walk. -/
def cutTips : List Commit :=
  [{ oid := .replicate 3, parents := [.replicate 9] }, { oid := .replicate 4, parents := [.replicate 8] }]

theorem range_queries_eq_scan_cut : (walk {} cutTips).snapshot.finalizeIndices.maxLaneInRange 1 1 =
    if (walk {} cutTips).snapshot.rows.length ≤ 1 then 0
    else ((walk {} cutTips).snapshot.lanesInRange 1 1).foldl max 0 :=
  (range_queries_eq_scan (reached_walk {} cutTips) 1 1).2

/-- The stub of the last row reaches one row further than the rows. -/
theorem stub_past_the_rows : Reached {} (walk {} cutTips) ∧
    ((walk {} cutTips).snapshot.finalizeIndices.edgesInRange 2 2).map Edge.lane = [1] ∧
    (walk {} cutTips).snapshot.finalizeIndices.maxLaneInRange 2 2 = 0 ∧
    ((walk {} cutTips).snapshot.lanesInRange 2 2).foldl max 0 = 1 := by
  refine ⟨reached_walk {} cutTips, ?_⟩
  decide +kernel

end GraphBuilder

end GitBranchManager

/-! ## The index of the view

The view asks for the edges of one row. Its index keeps the edges that start at each row, and those that
are open at the first row of every block, as a sweep over the rows finds them.
-/

namespace GitBranchManager

def kGraphSpanBlockSize : Nat := 64

/-- Edges are told by their places in the list. -/
structure GraphSpanIndex where
  edges : List Edge
  startsAt : List (List Nat)
  activeAtBlockStart : List (List Nat)

namespace GraphSpanIndex

/-- The last row of the edge at a place. -/
def lastRow (edges : List Edge) (e : Nat) : Nat := (edges.getD e {}).lastRow

/-- The rows that the edges reach, at least as many as the graph has. -/
def extent (rowCount : Nat) (edges : List Edge) : Nat :=
  edges.foldl (fun extent edge => max (max extent (edge.lastRow + 1)) (edge.childRow + 1)) rowCount

def addStart (extent : Nat) (startsAt : List (List Nat)) (item : Edge × Nat) : List (List Nat) :=
  if extent ≤ item.1.childRow then startsAt else startsAt.modify item.1.childRow (· ++ [item.2])

def fillStarts (extent : Nat) (edges : List Edge) : List (List Nat) :=
  edges.zipIdx.foldl (addStart extent) (List.replicate extent [])

/-- Drop the edges that ended before the row, then admit those that start at it. -/
def advance (edges : List Edge) (startsAt : List (List Nat)) (active : List Nat) (r : Nat) : List Nat :=
  (active.filter fun e => r ≤ lastRow edges e) ++ startsAt.getD r []

/-- One row of the sweep: the open edges, and those recorded for the blocks. -/
def sweepRow (edges : List Edge) (startsAt : List (List Nat)) (sweep : List Nat × List (List Nat)) (r : Nat) :
    List Nat × List (List Nat) :=
  let active := advance edges startsAt sweep.1 r
  (active, if r % kGraphSpanBlockSize = 0 then sweep.2.set (r / kGraphSpanBlockSize) active else sweep.2)

def build (rowCount : Nat) (edges : List Edge) : GraphSpanIndex :=
  let extent := extent rowCount edges
  let startsAt := fillStarts extent edges
  let blockCount := if extent = 0 then 0 else (extent + kGraphSpanBlockSize - 1) / kGraphSpanBlockSize
  let sweep := (List.range extent).foldl (sweepRow edges startsAt) ([], List.replicate blockCount [])
  { edges, startsAt, activeAtBlockStart := sweep.2 }

/-- The places of the edges of a row, as they are collected. -/
def hits (index : GraphSpanIndex) (row : Nat) : List Nat :=
  let block := row / kGraphSpanBlockSize
  let blockStart := block * kGraphSpanBlockSize
  ((index.activeAtBlockStart.getD block []).filter fun e => row ≤ lastRow index.edges e) ++
    (List.range' (blockStart + 1) (row - blockStart)).flatMap fun r =>
      (index.startsAt.getD r []).filter fun e => row ≤ lastRow index.edges e

def spanning (index : GraphSpanIndex) (rowIndex : Int) : List Edge :=
  if rowIndex < 0 ∨ index.startsAt.length ≤ rowIndex.toNat then []
  else ((index.hits rowIndex.toNat).insertionSort (· ≤ ·)).filterMap fun e => index.edges[e]?

/-! ## What the index holds -/

theorem lt_extent {rowCount : Nat} {edges : List Edge} {edge : Edge} (h : edge ∈ edges) :
    edge.lastRow < extent rowCount edges ∧ edge.childRow < extent rowCount edges := by
  have hBound := (@Library.Scans.foldl_max_le _ _ _ (fun edge : Edge => max (edge.lastRow + 1) (edge.childRow + 1))
    edges rowCount _).mp (Nat.le_refl _)
  have hEdge := hBound.2 edge h
  rw [extent]
  simp only [max_assoc] at hEdge ⊢
  omega

@[simp] theorem length_addStart (extent : Nat) (startsAt : List (List Nat)) (item : Edge × Nat) :
    (addStart extent startsAt item).length = startsAt.length := by
  rw [addStart]
  split
  · rfl
  · exact List.length_modify ..

theorem length_foldl_addStart (extent : Nat) (items : List (Edge × Nat)) (startsAt : List (List Nat)) :
    (items.foldl (addStart extent) startsAt).length = startsAt.length := by
  induction items generalizing startsAt with
  | nil => rfl
  | cons item items ih => rw [List.foldl_cons, ih, length_addStart]

/-- Each edge is appended at the row that it starts at. -/
theorem getD_foldl_addStart {extent r : Nat} (hRow : r < extent) (items : List (Edge × Nat))
    {startsAt : List (List Nat)} (hLength : startsAt.length = extent) :
    (items.foldl (addStart extent) startsAt).getD r [] =
      startsAt.getD r [] ++ (items.filter fun item => item.1.childRow = r).map Prod.snd := by
  induction items generalizing startsAt with
  | nil => exact (List.append_nil _).symm
  | cons item items ih =>
    rw [List.foldl_cons, ih ((length_addStart ..).trans hLength), addStart, List.filter_cons]
    simp only [List.getD_eq_getElem?_getD, decide_eq_true_eq]
    rcases eq_or_ne item.1.childRow r with rfl | hOther
    · rw [if_neg (Nat.not_le_of_lt hRow), if_pos rfl, List.getElem?_modify_eq,
        List.getElem?_eq_getElem (hLength ▸ hRow), List.map_cons]
      exact List.append_assoc _ [item.2] _
    · rw [if_neg hOther]
      split
      next => rfl
      next => rw [List.getElem?_modify_ne _ _ hOther]

theorem nodup_startsAt {extent r : Nat} (hRow : r < extent) (edges : List Edge) :
    ((fillStarts extent edges).getD r []).Nodup := by
  rw [fillStarts, getD_foldl_addStart hRow _ List.length_replicate, List.getD_eq_getElem?_getD,
    List.getElem?_replicate_of_lt hRow, Option.getD_some, List.nil_append]
  have hPlaces : (edges.zipIdx.map Prod.snd).Nodup := by
    rw [List.zipIdx_map_snd]
    exact List.nodup_range'
  exact hPlaces.sublist (List.filter_sublist.map _)

theorem mem_startsAt {extent r : Nat} {edges : List Edge} (hRow : r < extent) {e : Nat} :
    e ∈ (fillStarts extent edges).getD r [] ↔ ∃ edge, edges[e]? = some edge ∧ edge.childRow = r := by
  rw [fillStarts, getD_foldl_addStart hRow _ List.length_replicate, List.getD_eq_getElem?_getD,
    List.getElem?_replicate_of_lt hRow, Option.getD_some, List.nil_append, List.mem_map]
  constructor
  · rintro ⟨⟨edge, e⟩, hMem, rfl⟩
    obtain ⟨hMem, hStart⟩ := List.mem_filter.mp hMem
    exact ⟨edge, List.mem_zipIdx_iff_getElem?.mp hMem, of_decide_eq_true hStart⟩
  · rintro ⟨edge, hAt, hStart⟩
    exact ⟨(edge, e), List.mem_filter.mpr ⟨List.mem_zipIdx_iff_getElem?.mpr hAt, decide_eq_true hStart⟩, rfl⟩

/-! ## The sweep -/

/-- The open edges after `n` rows: those that reach the last of these rows, and all that start there. -/
structure OpenAfter (edges : List Edge) (n : Nat) (active : List Nat) : Prop where
  nodup : active.Nodup
  mem : ∀ e, e ∈ active ↔
    ∃ edge, edges[e]? = some edge ∧ edge.childRow < n ∧ (edge.childRow + 1 = n ∨ n ≤ edge.lastRow + 1)

theorem lastRow_eq {edges : List Edge} {e : Nat} {edge : Edge} (h : edges[e]? = some edge) :
    lastRow edges e = edge.lastRow := by
  rw [lastRow, List.getD_eq_getElem?_getD, h, Option.getD_some]

variable {edges : List Edge} {extent : Nat}

theorem openAfter_zero : OpenAfter edges 0 [] := by
  refine ⟨List.nodup_nil, fun e => iff_of_false List.not_mem_nil ?_⟩
  rintro ⟨edge, -, hChild, -⟩
  exact Nat.not_lt_zero _ hChild

theorem OpenAfter.advance {r : Nat} {active : List Nat} (h : OpenAfter edges r active) (hRow : r < extent) :
    OpenAfter edges (r + 1) (advance edges (fillStarts extent edges) active r) := by
  have hKept : ∀ e, e ∈ active.filter (fun e => r ≤ lastRow edges e) ↔
      ∃ edge, edges[e]? = some edge ∧ edge.childRow < r ∧ r ≤ edge.lastRow := by
    intro e
    rw [List.mem_filter, h.mem, decide_eq_true_eq]
    constructor
    · rintro ⟨⟨edge, hAt, hChild, -⟩, hLast⟩
      rw [lastRow_eq hAt] at hLast
      exact ⟨edge, hAt, hChild, hLast⟩
    · rintro ⟨edge, hAt, hChild, hLast⟩
      refine ⟨⟨edge, hAt, hChild, .inr (Nat.le_succ_of_le hLast)⟩, ?_⟩
      rwa [lastRow_eq hAt]
  constructor
  · refine (h.nodup.filter _).append (nodup_startsAt hRow edges) fun e hOld hNew => ?_
    obtain ⟨edge, hAt, hChild, -⟩ := (hKept e).mp hOld
    obtain ⟨edge', hAt', hStart⟩ := (mem_startsAt hRow).mp hNew
    obtain rfl := Option.some.inj (hAt.symm.trans hAt')
    omega
  · intro e
    rw [GraphSpanIndex.advance, List.mem_append, hKept, mem_startsAt hRow, ← exists_or]
    refine exists_congr fun edge => ?_
    rw [← and_or_left]
    apply and_congr_right
    intro _
    omega

/-- The sweep over the first rows, and the blocks it has met. -/
theorem sweep_spec {n blockCount : Nat} (hRows : n ≤ extent) (hBlocks : extent ≤ blockCount * kGraphSpanBlockSize) :
    let sweep := (List.range n).foldl (sweepRow edges (fillStarts extent edges)) ([], List.replicate blockCount [])
    OpenAfter edges n sweep.1 ∧ sweep.2.length = blockCount ∧
      ∀ block, block * kGraphSpanBlockSize < n →
        OpenAfter edges (block * kGraphSpanBlockSize + 1) (sweep.2.getD block []) := by
  induction n with
  | zero => exact ⟨openAfter_zero, List.length_replicate, fun _ h => absurd h (Nat.not_lt_zero _)⟩
  | succ n ih =>
    obtain ⟨hOpen, hLength, hMet⟩ := ih (Nat.le_of_succ_le hRows)
    rw [List.range_succ, List.foldl_append, List.foldl_cons, List.foldl_nil, sweepRow]
    generalize (List.range n).foldl _ _ = sweep at hOpen hLength hMet ⊢
    have hNext := hOpen.advance hRows
    dsimp only
    refine ⟨hNext, ?_, fun block hBlock => ?_⟩
    · split
      · rw [List.length_set, hLength]
      · exact hLength
    · split
      next hStart =>
        simp only [kGraphSpanBlockSize] at hBlocks hMet hBlock hStart ⊢
        rw [List.getD_eq_getElem?_getD, List.getElem?_set]
        rcases eq_or_ne (n / 64) block with hHere | hOther
        · have hRow : block * 64 = n := by omega
          rw [if_pos hHere, if_pos (by omega), hRow]
          exact hNext
        · rw [if_neg hOther, ← List.getD_eq_getElem?_getD]
          exact hMet block (by omega)
      next hWithin =>
        refine hMet block ?_
        simp only [kGraphSpanBlockSize] at hBlock hWithin ⊢
        omega

/-! ## Queries -/

/-- What starts below a row, down to another, and reaches that. -/
theorem mem_starters {blockStart row : Nat} (hRow : row < extent) (e : Nat) :
    (e ∈ (List.range' (blockStart + 1) (row - blockStart)).flatMap fun r =>
      ((fillStarts extent edges).getD r []).filter fun e => row ≤ lastRow edges e) ↔
      ∃ edge, edges[e]? = some edge ∧ blockStart < edge.childRow ∧ edge.spans row = true := by
  rw [List.mem_flatMap]
  constructor
  · rintro ⟨r, hMem, hFound⟩
    rw [List.mem_range'_1] at hMem
    obtain ⟨hFound, hLast⟩ := List.mem_filter.mp hFound
    obtain ⟨edge, hAt, rfl⟩ := (mem_startsAt (by omega)).mp hFound
    rw [lastRow_eq hAt] at hLast
    refine ⟨edge, hAt, hMem.1, ?_⟩
    rw [Edge.spans, hLast, Bool.and_true, decide_eq_true_eq]
    omega
  · rintro ⟨edge, hAt, hAfter, hSpans⟩
    rw [Edge.spans, Bool.and_eq_true, decide_eq_true_eq] at hSpans
    refine ⟨edge.childRow, ?_, List.mem_filter.mpr ⟨?_, ?_⟩⟩
    · rw [List.mem_range'_1]
      omega
    · exact (mem_startsAt (by omega)).mpr ⟨edge, hAt, rfl⟩
    · rw [lastRow_eq hAt]
      exact hSpans.2

theorem nodup_starters {blockStart row : Nat} (hRow : row < extent) :
    ((List.range' (blockStart + 1) (row - blockStart)).flatMap fun r =>
      ((fillStarts extent edges).getD r []).filter fun e => row ≤ lastRow edges e).Nodup := by
  have hBounds : ∀ r ∈ List.range' (blockStart + 1) (row - blockStart), r < extent := by
    intro r hMem
    rw [List.mem_range'_1] at hMem
    omega
  rw [List.nodup_flatMap]
  refine ⟨fun r hMem => (nodup_startsAt (hBounds r hMem) edges).filter _, ?_⟩
  refine List.Pairwise.imp_of_mem ?_ List.nodup_range'
  refine fun {r r'} hMem hMem' hOther e hHere hThere => hOther ?_
  obtain ⟨edge, hAt, rfl⟩ := (mem_startsAt (hBounds r hMem)).mp (List.mem_of_mem_filter hHere)
  obtain ⟨edge', hAt', rfl⟩ := (mem_startsAt (hBounds r' hMem')).mp (List.mem_of_mem_filter hThere)
  rw [Option.some.inj (hAt.symm.trans hAt')]

/-- The edges of a row, each once: an edge that started above the block is open at its first row. -/
theorem hits_spec {rowCount row : Nat} (hRow : row < GraphSpanIndex.extent rowCount edges) :
    ((build rowCount edges).hits row).Nodup ∧ ∀ e, e ∈ (build rowCount edges).hits row ↔
      ∃ edge, edges[e]? = some edge ∧ edge.spans row = true := by
  generalize hExtent : GraphSpanIndex.extent rowCount edges = extent at hRow
  have hBlock : row / kGraphSpanBlockSize * kGraphSpanBlockSize ≤ row := Nat.div_mul_le_self _ _
  have hCount : extent ≤ (if extent = 0 then 0 else (extent + kGraphSpanBlockSize - 1) / kGraphSpanBlockSize) *
      kGraphSpanBlockSize := by
    simp only [kGraphSpanBlockSize]
    split <;> omega
  have hStart := (@sweep_spec edges extent extent _ (Nat.le_refl extent) hCount).2.2 _ (Nat.lt_of_le_of_lt hBlock hRow)
  rw [hits, build, hExtent]
  dsimp only
  generalize List.getD _ (row / kGraphSpanBlockSize) [] = active at hStart ⊢
  generalize row / kGraphSpanBlockSize * kGraphSpanBlockSize = blockStart at hBlock hStart ⊢
  have hOpen : ∀ e, e ∈ active.filter (fun e => row ≤ lastRow edges e) ↔
      ∃ edge, edges[e]? = some edge ∧ edge.childRow ≤ blockStart ∧ edge.spans row = true := by
    intro e
    rw [List.mem_filter, hStart.mem, decide_eq_true_eq]
    simp only [Edge.spans, Bool.and_eq_true, decide_eq_true_eq]
    constructor
    · rintro ⟨⟨edge, hAt, hChild, -⟩, hLast⟩
      rw [lastRow_eq hAt] at hLast
      exact ⟨edge, hAt, by omega, by omega, hLast⟩
    · rintro ⟨edge, hAt, hChild, hSpans⟩
      refine ⟨⟨edge, hAt, by omega, by omega⟩, ?_⟩
      rw [lastRow_eq hAt]
      exact hSpans.2
  constructor
  · refine (hStart.nodup.filter _).append (nodup_starters hRow) fun e hAbove hWithin => ?_
    obtain ⟨edge, hAt, hChild, -⟩ := (hOpen e).mp hAbove
    obtain ⟨edge', hAt', hAfter, -⟩ := (mem_starters hRow e).mp hWithin
    obtain rfl := Option.some.inj (hAt.symm.trans hAt')
    omega
  · intro e
    rw [List.mem_append, hOpen, mem_starters hRow, ← exists_or]
    refine exists_congr fun edge => ?_
    rw [← and_or_left, ← or_and_right, and_iff_right (Nat.lt_or_ge _ _ |>.symm)]

/-- Each row is answered with the edges that span it, in the order of the graph. -/
theorem spanning_eq_filter (rowCount : Nat) (edges : List Edge) (rowIndex : Int) :
    (build rowCount edges).spanning rowIndex =
      edges.filter fun edge => 0 ≤ rowIndex && edge.spans rowIndex.toNat := by
  have hRows : (build rowCount edges).startsAt.length = GraphSpanIndex.extent rowCount edges :=
    (length_foldl_addStart ..).trans List.length_replicate
  rw [spanning, hRows]
  split
  next hOutside =>
    symm
    rw [List.filter_eq_nil_iff]
    intro edge hMem hSpans
    have hReach := @lt_extent rowCount edges edge hMem
    simp only [Edge.spans, Bool.and_eq_true, decide_eq_true_eq] at hSpans
    omega
  next hInside =>
    rw [not_or, Int.not_lt, Nat.not_le] at hInside
    obtain ⟨hNodup, hMem⟩ := hits_spec hInside.2
    have hFields : (build rowCount edges).edges = edges := rfl
    rw [hFields, Library.Scans.filterMap_places hNodup hMem]
    refine List.filter_congr fun edge _ => ?_
    rw [decide_eq_true hInside.1, Bool.true_and]

end GraphSpanIndex

end GitBranchManager
