import GitBranchManager.Base.Bytes
import GitBranchManager.Graph.ExactParents
import GitBranchManager.Library.Packed

/-! # The graph on the other side of the boundary

The core exports the arrays of a snapshot as they lie in memory, and Dart reads them field by field. Each array is
asked for by a call of its own, and a walk may publish between two calls.
-/

namespace GitBranchManager

open Library Library.Packed

/-! ## What the core exports -/

/-- What a native call answers; for a snapshot that is not there, and for an array of nothing, the pointer is null. -/
structure Exported where
  count : Int32 := 0
  stride : Nat
  data : Bytes := []

def exportArray {α : Type} (stride : Nat) (layout : α → Bytes) (items : List α) : Exported where
  count := Int32.ofNat items.length
  stride
  data := items.flatMap layout

def RowMeta.layout (m : RowMeta) : Bytes :=
  encode 4 m.parentOffset ++ (encode 4 m.edgeOffset ++ (encode 4 m.commitTime.toNat ++
    (encode 2 m.lane ++ [m.color, m.flags])))

def ObjectId.kMaxBytes : Nat := 32

/-- The bytes that are not significant are zero, and the last one is the length. -/
def ObjectId.layout (id : ObjectId) : Bytes :=
  id.bytes ++ (List.replicate (kMaxBytes - id.bytes.length) 0 ++ [UInt8.ofNat id.bytes.length])

def EdgeKind.value : EdgeKind → UInt8
  | .firstParent => 0
  | .mergeParent => 1
  | .octopus => 2

/-- The last two bytes are reserved. -/
def Edge.layout (e : Edge) : Bytes :=
  encode 4 e.childRow ++ (encode 4 e.parentRow ++ (encode 2 e.lane ++ (encode 2 e.childLane ++
    [e.color, e.kind.value, 0, 0])))

def graphSnapshotRows : Option GraphSnapshot → Exported
  | none => { stride := 16 }
  | some snapshot => exportArray 16 RowMeta.layout snapshot.rows

def graphSnapshotOids : Option GraphSnapshot → Exported
  | none => { stride := 33 }
  | some snapshot => exportArray 33 ObjectId.layout snapshot.oids

def graphSnapshotParents : Option GraphSnapshot → Exported
  | none => { stride := 4 }
  | some snapshot => exportArray 4 (encode 4) snapshot.parentPool

def graphSnapshotEdges : Option GraphSnapshot → Exported
  | none => { stride := 16 }
  | some snapshot => exportArray 16 Edge.layout snapshot.edges

/-! ## What Dart reads -/

structure GraphRow where
  parentOffset : Nat
  edgeOffset : Nat
  commitTime : Nat
  lane : Nat
  color : Nat
  flags : Nat
  deriving DecidableEq, Repr

/-- Seven stands for seven or more. -/
def GraphRow.parentCount (row : GraphRow) : Nat := row.flags &&& 0x07

structure GraphEdge where
  childRow : Nat
  parentRow : Nat
  lane : Nat
  childLane : Nat
  color : Nat
  kind : EdgeKind
  deriving DecidableEq, Repr

structure GraphSnapshotView where
  rows : List GraphRow := []
  oidsHex : List Utf16 := []
  parentPool : List Nat := []
  laneCount : Nat := 0
  complete : Bool := false
  truncated : Bool := false
  edges : List GraphEdge := []
  deriving DecidableEq, Repr

/-- The hashes of the parents, but for those outside the walk; none is a `RangeError`. -/
def GraphSnapshotView.parentsOf (view : GraphSnapshotView) (rowIndex : Nat) : Option (List Utf16) := do
  let row ← view.rows[rowIndex]?
  let slots ← (List.range row.parentCount).mapM fun i => view.parentPool[row.parentOffset + i]?
  (slots.filter (· ≠ kRowBoundary)).mapM fun slot => view.oidsHex[slot]?

def readRow (data : Bytes) (base : Nat) : Option GraphRow := do
  let parentOffset ← getUint 4 data base
  let edgeOffset ← getUint 4 data (base + 4)
  let commitTime ← getUint 4 data (base + 8)
  let lane ← getUint 2 data (base + 12)
  let color ← getUint 1 data (base + 14)
  let flags ← getUint 1 data (base + 15)
  some { parentOffset, edgeOffset, commitTime, lane, color, flags }

/-- `toRadixString(16).padLeft(2, '0')`. -/
def radix16 (n : Nat) : Utf16 :=
  let digits := (Nat.toDigits 16 n).map fun c => c.toNat.toUInt16
  List.replicate (2 - digits.length) 48 ++ digits

def readOid (data : Bytes) (base : Nat) : Option Utf16 := do
  let length ← getUint 1 data (base + 32)
  let bytes ← (List.range length).mapM fun b => getUint 1 data (base + b)
  some (bytes.flatMap radix16)

def readEdge (data : Bytes) (base : Nat) : Option GraphEdge := do
  let childRow ← getUint 4 data base
  let parentRow ← getUint 4 data (base + 4)
  let lane ← getUint 2 data (base + 8)
  let childLane ← getUint 2 data (base + 10)
  let color ← getUint 1 data (base + 12)
  let kind ← [EdgeKind.firstParent, .mergeParent, .octopus][← getUint 1 data (base + 13)]?
  some { childRow, parentRow, lane, childLane, color, kind }

/-- Reading fewer than no items throws. -/
def readArray {α : Type} (read : Bytes → Nat → Option α) (ifEmpty : List α) (exported : Exported) : Option (List α) :=
  if exported.count = 0 then some ifEmpty
  else if exported.count < 0 then none
  else getRecords read exported.data exported.stride exported.count.toNatClampNeg

inductive GraphCall
  | rows
  | oids
  | parents
  | edges
  | laneCount
  | complete
  | truncated
  deriving DecidableEq, Repr

def readOids (snapshot : Option GraphSnapshot) (expectedCount : Nat) : Option (List Utf16) :=
  readArray readOid (List.replicate expectedCount []) (graphSnapshotOids snapshot)

def readParents (snapshot : Option GraphSnapshot) : Option (List Nat) :=
  readArray (getUint 4) [] (graphSnapshotParents snapshot)

def readEdges (snapshot : Option GraphSnapshot) : Option (List GraphEdge) :=
  readArray readEdge [] (graphSnapshotEdges snapshot)

/-- Each call answers for the snapshot that is published when it is made. -/
def readGraphSnapshot (published : GraphCall → Option GraphSnapshot) : Option GraphSnapshotView :=
  if (graphSnapshotRows (published .rows)).count = 0 then some {}
  else do
    let rows ← readArray readRow [] (graphSnapshotRows (published .rows))
    let oidsHex ← readOids (published .oids) rows.length
    let parentPool ← readParents (published .parents)
    let edges ← readEdges (published .edges)
    some
      { rows, oidsHex, parentPool, edges
        laneCount := (published .laneCount).elim 0 GraphSnapshot.laneCount
        complete := (published .complete).any GraphSnapshot.complete
        truncated := (published .truncated).any GraphSnapshot.truncated }

/-! ## What is to be read -/

def RowMeta.view (m : RowMeta) : GraphRow where
  parentOffset := m.parentOffset
  edgeOffset := m.edgeOffset
  commitTime := m.commitTime.toNat
  lane := m.lane
  color := m.color.toNat
  flags := m.flags.toNat

def ObjectId.text (id : ObjectId) : Utf16 := id.hex.map UInt8.toUInt16

def Edge.view (e : Edge) : GraphEdge where
  childRow := e.childRow
  parentRow := e.parentRow
  lane := e.lane
  childLane := e.childLane
  color := e.color.toNat
  kind := e.kind

namespace GraphSnapshot

/-- The counts fit the calls, and the numbers their fields. -/
structure Fits (s : GraphSnapshot) : Prop where
  oids : s.oids.length = s.rows.length
  rows : s.rows.length < 2 ^ 31
  pool : s.parentPool.length < 2 ^ 31
  edges : s.edges.length < 2 ^ 31
  row : ∀ m ∈ s.rows, m.parentOffset < 2 ^ 32 ∧ m.edgeOffset < 2 ^ 32 ∧ m.lane < 2 ^ 16
  slot : ∀ p ∈ s.parentPool, p < 2 ^ 32
  edge : ∀ e ∈ s.edges, e.childRow < 2 ^ 32 ∧ e.parentRow < 2 ^ 32 ∧ e.lane < 2 ^ 16 ∧ e.childLane < 2 ^ 16

def view (s : GraphSnapshot) : GraphSnapshotView where
  rows := s.rows.map RowMeta.view
  oidsHex := s.oids.map ObjectId.text
  parentPool := s.parentPool
  laneCount := s.laneCount
  complete := s.complete
  truncated := s.truncated
  edges := s.edges.map Edge.view

end GraphSnapshot

/-! ## Each record is read as it was -/

theorem RowMeta.length_layout (m : RowMeta) : m.layout.length = 16 := by
  simp [RowMeta.layout]

theorem readRow_layout {m : RowMeta} (h : m.parentOffset < 2 ^ 32 ∧ m.edgeOffset < 2 ^ 32 ∧ m.lane < 2 ^ 16)
    (front rest : Bytes) : readRow (front ++ (m.layout ++ rest)) front.length = some m.view := by
  obtain ⟨hParent, hEdge, hLane⟩ := h
  have hReadParent := getUint_encode (show m.parentOffset < 256 ^ 4 from hParent)
  have hReadEdge := getUint_encode (show m.edgeOffset < 256 ^ 4 from hEdge)
  have hReadTime := getUint_encode (show m.commitTime.toNat < 256 ^ 4 from m.commitTime.toNat_lt)
  have hReadLane := getUint_encode (show m.lane < 256 ^ 2 from hLane)
  simp [readRow, RowMeta.layout, getUint_append_right, getUint_one, hReadParent, hReadEdge, hReadTime, hReadLane,
    RowMeta.view]

theorem Edge.length_layout (e : Edge) : e.layout.length = 16 := by
  simp [Edge.layout]

theorem readEdge_layout {e : Edge}
    (h : e.childRow < 2 ^ 32 ∧ e.parentRow < 2 ^ 32 ∧ e.lane < 2 ^ 16 ∧ e.childLane < 2 ^ 16) (front rest : Bytes) :
    readEdge (front ++ (e.layout ++ rest)) front.length = some e.view := by
  obtain ⟨hChild, hParent, hLane, hChildLane⟩ := h
  have hReadChild := getUint_encode (show e.childRow < 256 ^ 4 from hChild)
  have hReadParent := getUint_encode (show e.parentRow < 256 ^ 4 from hParent)
  have hReadLane := getUint_encode (show e.lane < 256 ^ 2 from hLane)
  have hReadChildLane := getUint_encode (show e.childLane < 256 ^ 2 from hChildLane)
  have hKind : [EdgeKind.firstParent, .mergeParent, .octopus][e.kind.value.toNat]? = some e.kind := by
    cases e.kind <;> rfl
  simp [readEdge, Edge.layout, getUint_append_right, getUint_one, hReadChild, hReadParent, hReadLane, hReadChildLane,
    hKind, Edge.view]

theorem ObjectId.length_layout (id : ObjectId) : id.layout.length = 33 := by
  have hBytes := id.length_mem
  simp only [List.mem_cons, List.not_mem_nil, or_false] at hBytes
  simp only [ObjectId.layout, List.length_append, List.length_replicate, List.length_singleton, ObjectId.kMaxBytes]
  omega

theorem radix16_toNat (b : UInt8) : radix16 b.toNat = (ObjectId.hexPair b).map UInt8.toUInt16 := by
  have hAll : ∀ n : Fin 256, radix16 (UInt8.ofFin n).toNat = (ObjectId.hexPair (UInt8.ofFin n)).map UInt8.toUInt16 := by
    decide +kernel
  exact hAll b.toFin

theorem readOid_layout (id : ObjectId) (front rest : Bytes) :
    readOid (front ++ (id.layout ++ rest)) front.length = some id.text := by
  have hBytes := id.length_mem
  simp only [List.mem_cons, List.not_mem_nil, or_false] at hBytes
  have hLength : getUint 1 (front ++ (id.layout ++ rest)) (front.length + 32) = some id.bytes.length := by
    have hFront : (id.bytes ++ List.replicate (ObjectId.kMaxBytes - id.bytes.length) 0).length = 32 := by
      rw [List.length_append, List.length_replicate, ObjectId.kMaxBytes]
      omega
    rw [getUint_append_right (Nat.le_add_right _ _), Nat.add_sub_cancel_left, ObjectId.layout, ← List.append_assoc,
      List.append_assoc, getUint_append_right hFront.le, hFront, Nat.sub_self, getUint_one]
    change some ((UInt8.ofNat id.bytes.length).toNat) = _
    rw [UInt8.toNat_ofNat', Nat.mod_eq_of_lt (by omega)]
  have hRead : (List.range id.bytes.length).mapM
      (fun b => getUint 1 (front ++ (id.layout ++ rest)) (front.length + b)) = some (id.bytes.map UInt8.toNat) := by
    rw [List.range_eq_range']
    apply mapM_range'
    intro i b hByte
    have hLess := (List.getElem?_eq_some_iff.mp hByte).1
    rw [getUint_append_right (Nat.le_add_right _ _), Nat.add_sub_cancel_left, ObjectId.layout, getUint_one,
      Nat.zero_add, List.append_assoc, List.getElem?_append_left hLess, hByte]
    rfl
  rw [readOid, hLength]
  simp only [Option.bind_eq_bind, Option.bind_some, hRead]
  rw [ObjectId.text, ObjectId.hex, List.flatMap_map, List.map_flatMap]
  simp only [radix16_toNat]

/-! ## Each array is read as it was -/

theorem count_eq_zero {n : Nat} (h : n < 2 ^ 31) : Int32.ofNat n = 0 ↔ n = 0 := by
  rw [← Int32.toInt_inj, Int32.toInt_ofNat_of_lt h, Int32.toInt_zero, Int.natCast_eq_zero]

theorem readArray_exportArray {α β : Type} {stride : Nat} {layout : α → Bytes} {read : Bytes → Nat → Option β}
    {view : α → β} {items : List α} (hLength : ∀ a, (layout a).length = stride)
    (hRead : ∀ a ∈ items, ∀ front rest, read (front ++ (layout a ++ rest)) front.length = some (view a))
    (hCount : items.length < 2 ^ 31) (ifEmpty : List β) :
    readArray read ifEmpty (exportArray stride layout items) =
      some (if items = [] then ifEmpty else items.map view) := by
  have hZero : (exportArray stride layout items).count = 0 ↔ items = [] := by
    rw [← List.length_eq_zero_iff]
    exact count_eq_zero hCount
  have hNotNegative : ¬ (exportArray stride layout items).count < 0 := by
    change ¬ Int32.ofNat items.length < 0
    rw [Int32.lt_iff_toInt_lt, Int32.toInt_ofNat_of_lt hCount, Int32.toInt_zero]
    omega
  have hItems : (exportArray stride layout items).count.toNatClampNeg = items.length :=
    Int32.toNatClampNeg_ofNat_of_lt hCount
  obtain hNone | hSome := eq_or_ne items []
  · rw [readArray, if_pos (hZero.mpr hNone), if_pos hNone]
  · rw [readArray, if_neg (mt hZero.mp hSome), if_neg hNotNegative, hItems, if_neg hSome]
    exact getRecords_flatMap hLength hRead

namespace GraphSnapshot

theorem Fits.readRows {s : GraphSnapshot} (h : s.Fits) :
    readArray readRow [] (graphSnapshotRows (some s)) = some (s.rows.map RowMeta.view) := by
  refine (readArray_exportArray RowMeta.length_layout (fun m hMem => readRow_layout (h.row m hMem)) h.rows []).trans ?_
  split
  next hNone => rw [hNone, List.map_nil]
  next => rfl

theorem Fits.readOids {s : GraphSnapshot} (h : s.Fits) (hRows : s.rows ≠ []) (expectedCount : Nat) :
    readOids (some s) expectedCount = some (s.oids.map ObjectId.text) := by
  have hCount : s.oids.length < 2 ^ 31 := h.oids ▸ h.rows
  have hSome : s.oids ≠ [] := by
    rwa [← List.length_pos_iff, h.oids, List.length_pos_iff]
  refine (readArray_exportArray ObjectId.length_layout (fun id _ => readOid_layout id) hCount _).trans ?_
  rw [if_neg hSome]

theorem Fits.readParents {s : GraphSnapshot} (h : s.Fits) : readParents (some s) = some s.parentPool := by
  have hRead (slot : Nat) (hMem : slot ∈ s.parentPool) (front rest : Bytes) :
      getUint 4 (front ++ (encode 4 slot ++ rest)) front.length = some slot := by
    rw [getUint_append_right (Nat.le_refl _), Nat.sub_self]
    exact getUint_encode (h.slot slot hMem) rest
  refine (readArray_exportArray (length_encode 4) hRead h.pool []).trans ?_
  rw [List.map_id']
  split
  next hNone => rw [hNone]
  next => rfl

theorem Fits.readEdges {s : GraphSnapshot} (h : s.Fits) : readEdges (some s) = some (s.edges.map Edge.view) := by
  refine (readArray_exportArray Edge.length_layout (fun e hMem => readEdge_layout (h.edge e hMem)) h.edges []).trans ?_
  split
  next hNone => rw [hNone, List.map_nil]
  next => rfl

end GraphSnapshot

/-- Calls that answer for different snapshots: Dart has of each the array that it asked it for. -/
theorem readGraphSnapshot_torn {shown : GraphCall → GraphSnapshot} (h : ∀ call, (shown call).Fits)
    (hRows : (shown .rows).rows ≠ []) (hOids : (shown .oids).rows ≠ []) :
    readGraphSnapshot (fun call => some (shown call)) =
      some
        { rows := (shown .rows).view.rows
          oidsHex := (shown .oids).view.oidsHex
          parentPool := (shown .parents).view.parentPool
          edges := (shown .edges).view.edges
          laneCount := (shown .laneCount).view.laneCount
          complete := (shown .complete).view.complete
          truncated := (shown .truncated).view.truncated } := by
  have hSome : ¬ (graphSnapshotRows (some (shown .rows))).count = 0 := by
    change ¬ Int32.ofNat _ = 0
    rwa [count_eq_zero (h .rows).rows, List.length_eq_zero_iff]
  rw [readGraphSnapshot, if_neg hSome, (h .rows).readRows, (h .parents).readParents, (h .edges).readEdges]
  simp only [Option.bind_eq_bind, Option.bind_some, (h .oids).readOids hOids]
  rfl

namespace GraphBuilder

open LaneAllocator Library.Waiting

structure Compact (done : List Commit) (b : GraphBuilder) : Prop where
  counts : b.built.rows.map (fun m => m.flags &&& RowMeta.flagParentCountMask) =
    done.map fun commit => UInt8.ofNat (min commit.parents.length 7)
  edges : b.built.edges.length = (parentSlots done).length
  row : ∀ m ∈ b.built.rows, m.edgeOffset ≤ b.built.edges.length ∧ m.lane ≤ kMaxLanes
  edge : ∀ e ∈ b.built.edges, e.lane ≤ kMaxLanes ∧ e.childLane ≤ kMaxLanes
  pending : ∀ item ∈ b.pending, item.2.lane ≤ kMaxLanes

theorem lane_le_of_allocated {a lanes : LaneAllocator} {start lane : Nat} (h : Allocated a start (lane, lanes)) :
    lane ≤ kMaxLanes := by
  cases h with
  | overflow => exact Nat.le_refl _
  | free lane _ hLane => exact hLane.le

theorem lane_le_of_occupied {b : GraphBuilder} {oid : ObjectId} {lane : Nat} {lanes : LaneAllocator}
    (hPending : ∀ item ∈ b.pending, item.2.lane ≤ kMaxLanes) (h : Occupied b oid (lane, lanes)) : lane ≤ kMaxLanes := by
  cases h with
  | trunk => exact Nat.zero_le _
  | tip _ _ _ _ hAlloc => exact lane_le_of_allocated hAlloc
  | chosen _ hSome =>
    obtain ⟨edge, hMem, hLane⟩ := chooseLane_mem hSome
    rw [← hLane]
    exact hPending _ (mem_waiting.mp hMem)

theorem lane_le_of_routed {b : GraphBuilder} {lane target : Nat} {parent : ObjectId} {lanes : LaneAllocator}
    (hPending : ∀ item ∈ b.pending, item.2.lane ≤ kMaxLanes) (h : Routed b lane parent (target, lanes)) :
    target ≤ kMaxLanes := by
  cases h with
  | joined edge hMem => exact hPending _ (mem_waiting.mp hMem)
  | opened _ _ _ hAlloc => exact lane_le_of_allocated hAlloc

/-- While the edges of a row are made. -/
structure Connecting (rows : List RowMeta) (edges next : Nat) (b : GraphBuilder) : Prop where
  rows : b.built.rows = rows
  edges : b.built.edges.length = edges + next
  edge : ∀ e ∈ b.built.edges, e.lane ≤ kMaxLanes ∧ e.childLane ≤ kMaxLanes
  pending : ∀ item ∈ b.pending, item.2.lane ≤ kMaxLanes

theorem Connecting.connect {rows : List RowMeta} {edges next : Nat} {b : GraphBuilder}
    (h : Connecting rows edges next b) {childLane lane : Nat} (hChild : childLane ≤ kMaxLanes)
    (hLane : lane ≤ kMaxLanes) (parent : ObjectId) (row : Nat) (color : UInt8) (kind : EdgeKind) (index : Nat)
    (first : Bool) :
    Connecting rows edges (next + 1) (b.connect parent row childLane lane color kind index first) where
  rows := h.rows
  edges := by rw [edges_connect, List.length_append, List.length_singleton, h.edges, Nat.add_assoc]
  edge := by
    intro e hMem
    rw [edges_connect, List.mem_append, List.mem_singleton] at hMem
    obtain hOld | rfl := hMem
    · exact h.edge e hOld
    · exact ⟨hLane, hChild⟩
  pending := by
    intro item hMem
    rw [pending_connect, List.mem_append, List.mem_singleton] at hMem
    obtain hOld | rfl := hMem
    · exact h.pending item hOld
    · exact hLane

theorem connecting_descend {b : GraphBuilder} {rows : List RowMeta} {edges : Nat} (h : Connecting rows edges 0 b)
    {lane : Nat} (hLane : lane ≤ kMaxLanes) (row : Nat) (color : UInt8) (offset : Nat) (parents : List ObjectId) :
    Connecting rows edges parents.length (b.descend row lane color offset parents) := by
  refine descend_steps (motive := Connecting rows edges) ?_ ?_ ?_
  · intro _
    rw [releaseIfEnded_eq]
    exact ⟨h.rows, h.edges, h.edge, h.pending⟩
  · intro parent _
    exact h.connect hLane hLane parent row color .firstParent offset true
  · intro i b' kind parent _ _ _ hb
    have hTarget := lane_le_of_routed hb.pending (route_routed b' lane parent)
    have hRelaned (lanes : LaneAllocator) : Connecting rows edges i { b' with lanes } :=
      ⟨hb.rows, hb.edges, hb.edge, hb.pending⟩
    exact (hRelaned _).connect hLane hTarget parent row _ kind _ false

theorem parentCount_rowMeta (b : GraphBuilder) (commit : Commit) (lane : Nat) (color : UInt8) :
    (b.rowMeta commit lane color).flags &&& RowMeta.flagParentCountMask =
      UInt8.ofNat (min commit.parents.length 7) := by
  have hMask : ∀ count : Fin 8, ∀ merge overflow : Bool,
      let flags := if merge then UInt8.ofNat count ||| RowMeta.flagIsMerge else UInt8.ofNat count
      (if overflow then flags ||| RowMeta.flagLaneOverflow else flags) &&& RowMeta.flagParentCountMask =
        UInt8.ofNat count := by decide
  have hCount := hMask ⟨min commit.parents.length 7, by omega⟩ (decide (1 < commit.parents.length)) (isOverflow lane)
  simpa [rowMeta] using hCount

theorem Compact.emit {done : List Commit} {b : GraphBuilder} (h : Compact done b) (commit : Commit) :
    Compact (done ++ [commit]) (b.emit commit) := by
  obtain ⟨lane, lanes, hOccupied, hEmit⟩ := emit_eq b commit
  have hLane := lane_le_of_occupied h.pending hOccupied
  have hRows := rowMeta_arrive b commit lane lanes
  have hArriveEdges : (b.arrive commit lane lanes).built.edges.length = b.built.edges.length :=
    length_eq_of_getElem?_map (getElem?_edges_arrive b commit lane lanes)
  have hArrive : Connecting (b.built.rows ++ [b.rowMeta commit lane (lanes.colorOf lane)]) b.built.edges.length 0
      (b.arrive commit lane lanes) := by
    refine ⟨hRows, hArriveEdges, ?_, ?_⟩
    · intro e hMem
      obtain ⟨e₀, hOld, rfl | ⟨_, _, _, rfl⟩⟩ := mem_edges_arrive b commit lane lanes hMem
      · exact h.edge e hOld
      · exact h.edge e₀ hOld
    · intro item hMem
      rw [pending_arrive] at hMem
      exact h.pending item (mem_discard.mp hMem).1
  have hDone := connecting_descend hArrive hLane b.built.rows.length (lanes.colorOf lane) b.built.parentPool.length
    commit.parents
  rw [hEmit]
  refine ⟨?_, ?_, ?_, hDone.edge, hDone.pending⟩
  · refine (congrArg (List.map _) hDone.rows).trans ?_
    rw [List.map_append, h.counts, List.map_append, List.map_singleton, List.map_singleton, parentCount_rowMeta]
  · refine hDone.edges.trans ?_
    rw [parentSlots_append, List.length_append, List.length_map, h.edges]
  · intro m hMem
    have hEdges := hDone.edges
    change m ∈ (GraphBuilder.descend _ _ _ _ _ _).built.rows at hMem
    rw [hDone.rows, List.mem_append, List.mem_singleton] at hMem
    change m.edgeOffset ≤ (GraphBuilder.descend _ _ _ _ _ _).built.edges.length ∧ _
    rw [hEdges]
    obtain hOld | rfl := hMem
    · obtain ⟨hOffset, hOldLane⟩ := h.row m hOld
      exact ⟨hOffset.trans (Nat.le_add_right _ _), hOldLane⟩
    · exact ⟨Nat.le_add_right _ _, hLane⟩

theorem compact_walk (options : GraphOptions) (commits : List Commit) :
    Compact (commits.take options.maxRows.toNat) (walk options commits) := by
  refine walk_induction (motive := Compact) options commits ⟨rfl, rfl, ?_, ?_, ?_⟩ ?_ ?_
  · exact fun m hMem => absurd hMem List.not_mem_nil
  · exact fun e hMem => absurd hMem List.not_mem_nil
  · exact fun item hMem => absurd hMem List.not_mem_nil
  · exact fun _ _ h => ⟨h.counts, h.edges, h.row, h.edge, h.pending⟩
  · intro done commit b _ _ _ _ _ h
    exact h.emit commit

theorem parentSlots_le (done : List Commit) (row : Nat) :
    (parentSlots (done.take row)).length ≤ (parentSlots done).length := by
  have hPrefix := parentSlots_prefix (done.take row) (done.drop row)
  rw [List.take_append_drop] at hPrefix
  exact hPrefix.length_le

theorem rowOf_le (done : List Commit) (oid : ObjectId) (hRows : done.length < 2 ^ 31) : rowOf done oid < 2 ^ 32 := by
  rw [rowOf]
  cases hFound : done.findIdx? fun commit => commit.oid == oid with
  | none => decide
  | some row =>
    obtain ⟨hLess, -⟩ := List.findIdx?_eq_some_iff_getElem.mp hFound
    rw [Option.getD_some]
    omega

/-- A published row is the one that was built, with or without the boundary flag. -/
theorem mem_rows_published {options : GraphOptions} {commits : List Commit} {finished : Bool} {m : RowMeta}
    (h : m ∈ (published finished (walk options commits)).rows) :
    ∃ base ∈ (walk options commits).built.rows, ∃ boundary, m = withBoundary base boundary := by
  obtain ⟨row, hRow⟩ := List.mem_iff_getElem?.mp h
  rw [(published_walk options commits finished).2.1] at hRow
  obtain ⟨base, hBase, rfl⟩ := Option.map_eq_some_iff.mp hRow
  exact ⟨base, List.mem_of_getElem? hBase, _, rfl⟩

theorem withBoundary_fields (m : RowMeta) (boundary : Bool) :
    (withBoundary m boundary).parentOffset = m.parentOffset ∧ (withBoundary m boundary).edgeOffset = m.edgeOffset ∧
      (withBoundary m boundary).lane = m.lane ∧
      (withBoundary m boundary).flags &&& RowMeta.flagParentCountMask = m.flags &&& RowMeta.flagParentCountMask := by
  cases boundary with
  | false => exact ⟨rfl, rfl, rfl, rfl⟩
  | true =>
    refine ⟨rfl, rfl, rfl, ?_⟩
    have hMask : ∀ n : Fin 256, (UInt8.ofFin n ||| RowMeta.flagBoundary) &&& RowMeta.flagParentCountMask =
        UInt8.ofFin n &&& RowMeta.flagParentCountMask := by decide +kernel
    exact hMask m.flags.toFin

theorem length_rows_published (options : GraphOptions) (commits : List Commit) (finished : Bool) :
    (published finished (walk options commits)).rows.length = (commits.take options.maxRows.toNat).length := by
  rw [← length_rows_walk]
  apply length_eq_of_getElem?_map
  exact (published_walk options commits finished).2.1

theorem fits_published (options : GraphOptions) {commits : List Commit} (hNodup : (commits.map Commit.oid).Nodup)
    (hOrder : ChildrenFirst commits) (hRows : (commits.take options.maxRows.toNat).length < 2 ^ 31)
    (hSlots : (parentSlots (commits.take options.maxRows.toNat)).length < 2 ^ 31) (finished : Bool) :
    (published finished (walk options commits)).Fits := by
  obtain ⟨hOids, -, hEdges, hPool⟩ := published_walk options commits finished
  have hAwaiting := awaiting_walk options hNodup hOrder
  have hCompact := compact_walk options commits
  have hOpen := open_walk options commits
  have hLength := length_rows_walk options commits
  constructor
  · rw [hOids, oids_walk, List.length_map, length_rows_published]
  · rw [length_rows_published]
    exact hRows
  · rw [hPool, hAwaiting.pool, List.length_map]
    exact hSlots
  · rw [hEdges, hCompact.edges]
    exact hSlots
  · intro m hMem
    obtain ⟨base, hBase, boundary, rfl⟩ := mem_rows_published hMem
    obtain ⟨hParent, hEdge, hLane, -⟩ := withBoundary_fields base boundary
    obtain ⟨hOffset, hNarrow⟩ := hCompact.row base hBase
    have hSlot : base.parentOffset ∈ (walk options commits).built.rows.map RowMeta.parentOffset :=
      List.mem_map_of_mem hBase
    rw [hAwaiting.rows] at hSlot
    obtain ⟨row, -, hRow⟩ := List.mem_map.mp hSlot
    have hWithin := parentSlots_le (commits.take options.maxRows.toNat) row
    have hEdgeCount := hCompact.edges
    have hMax : kMaxLanes = 48 := rfl
    rw [hParent, hEdge, hLane]
    omega
  · intro slot hMem
    rw [hPool, hAwaiting.pool] at hMem
    obtain ⟨parent, -, rfl⟩ := List.mem_map.mp hMem
    exact rowOf_le _ _ hRows
  · intro e hMem
    rw [hEdges] at hMem
    obtain ⟨hLane, hChildLane⟩ := hCompact.edge e hMem
    have hChild := hOpen.child e hMem
    have hMax : kMaxLanes = 48 := rfl
    have hParent : e.parentRow < 2 ^ 32 := by
      obtain ⟨i, hEdge⟩ := List.mem_iff_getElem?.mp hMem
      obtain ⟨item, hItem, rfl⟩ | hClosed := hOpen.closed i e hEdge
      · rw [(hOpen.edge_eq hItem hEdge).1]
        decide
      · omega
    omega

/-! ## Parents, while a walk goes on -/

/-- The rows that are shown when so many commits have come. -/
def emitted (options : GraphOptions) (commits : List Commit) (count : Nat) : List Commit :=
  (commits.take count).take options.maxRows.toNat

theorem emitted_prefix (options : GraphOptions) (commits : List Commit) {early late : Nat} (h : early ≤ late) :
    emitted options commits early <+: emitted options commits late := by
  rw [emitted, emitted, List.take_take, List.take_take]
  exact List.take_prefix_take_left (by omega)

theorem rowOf_eq_boundary {done : List Commit} (hRows : done.length < 2 ^ 31) (oid : ObjectId) :
    rowOf done oid = kRowBoundary ↔ oid ∉ done.map Commit.oid := by
  refine ⟨fun h hMem => ?_, rowOf_of_not_mem⟩
  obtain ⟨commit, hCommit, rfl⟩ := List.mem_map.mp hMem
  cases hFound : done.findIdx? fun c => c.oid == commit.oid with
  | none => simpa using List.findIdx?_eq_none_iff.mp hFound commit hCommit
  | some row =>
    obtain ⟨hLess, -⟩ := List.findIdx?_eq_some_iff_getElem.mp hFound
    rw [rowOf, hFound, Option.getD_some, kRowBoundary] at h
    omega

/-- The row of a commit looked up among the first rows: it is there or past their end. -/
theorem getElem?_rowOf {short long : List Commit} (hPrefix : short <+: long) {oid : ObjectId}
    (hMem : oid ∈ long.map Commit.oid) :
    (short.map Commit.oid)[rowOf long oid]? = if oid ∈ short.map Commit.oid then some oid else none := by
  obtain ⟨rest, rfl⟩ := hPrefix
  rw [rowOf, List.findIdx?_append]
  split
  next hShort =>
    obtain ⟨commit, hCommit, rfl⟩ := List.mem_map.mp hShort
    cases hFound : short.findIdx? fun c => c.oid == commit.oid with
    | none => simpa using List.findIdx?_eq_none_iff.mp hFound commit hCommit
    | some row =>
      obtain ⟨hLess, hRow, -⟩ := List.findIdx?_eq_some_iff_getElem.mp hFound
      rw [Option.some_or, Option.getD_some, List.getElem?_map, List.getElem?_eq_getElem hLess, Option.map_some,
        beq_iff_eq.mp hRow]
  next hShort =>
    have hNone : short.findIdx? (fun c => c.oid == oid) = none := by
      rw [List.findIdx?_eq_none_iff]
      intro commit hCommit
      rw [beq_eq_false_iff_ne]
      rintro rfl
      exact hShort (List.mem_map_of_mem hCommit)
    rw [hNone, Option.none_or]
    apply List.getElem?_eq_none
    rw [List.length_map]
    cases hFound : rest.findIdx? fun c => c.oid == oid with
    | none =>
      rw [List.map_append, List.mem_append] at hMem
      obtain ⟨commit, hCommit, rfl⟩ := List.mem_map.mp (hMem.resolve_left hShort)
      simpa using List.findIdx?_eq_none_iff.mp hFound commit hCommit
    | some row => simp

theorem mapM_guarded {α β : Type} {f : α → Option β} {g : α → β} {p : α → Bool} {items : List α}
    (h : ∀ a ∈ items, f a = if p a then some (g a) else none) :
    items.mapM f = if items.all p then some (items.map g) else none := by
  induction items with
  | nil => rfl
  | cons a items ih =>
    obtain ⟨hFirst, hRest⟩ := List.forall_mem_cons.mp h
    rw [List.mapM_cons, hFirst, ih hRest, List.all_cons]
    cases p a <;> cases items.all p <;> rfl

/-- The offset and the count of a published row. -/
theorem row_published (options : GraphOptions) {commits : List Commit} (hNodup : (commits.map Commit.oid).Nodup)
    (hOrder : ChildrenFirst commits) (finished : Bool) {row : Nat} {commit : Commit}
    (hRow : (commits.take options.maxRows.toNat)[row]? = some commit) :
    ∃ m, (published finished (walk options commits)).rows[row]? = some m ∧
      m.parentOffset = (parentSlots ((commits.take options.maxRows.toNat).take row)).length ∧
      m.view.parentCount = min commit.parents.length 7 := by
  have hOffsets := (awaiting_walk options hNodup hOrder).rows
  have hCounts := (compact_walk options commits).counts
  have hLess := (List.getElem?_eq_some_iff.mp hRow).1
  have hBuilt : row < (walk options commits).built.rows.length := by rwa [length_rows_walk]
  obtain ⟨base, hBase⟩ : ∃ base, (walk options commits).built.rows[row]? = some base :=
    ⟨_, List.getElem?_eq_getElem hBuilt⟩
  have hOffset : base.parentOffset = (parentSlots ((commits.take options.maxRows.toNat).take row)).length := by
    have hAt := congrArg (fun offsets => offsets[row]?) hOffsets
    simp only [List.getElem?_map, hBase, List.getElem?_range hLess, Option.map_some, Option.some.injEq] at hAt
    exact hAt
  have hCount : base.flags &&& RowMeta.flagParentCountMask = UInt8.ofNat (min commit.parents.length 7) := by
    have hAt := congrArg (fun counts => counts[row]?) hCounts
    simp only [List.getElem?_map, hBase, hRow, Option.map_some, Option.some.injEq] at hAt
    exact hAt
  obtain ⟨hParent, -, -, hFlags⟩ := withBoundary_fields base
    (continuesOutside (published finished (walk options commits)) row)
  refine ⟨_, by rw [(published_walk options commits finished).2.1, hBase, Option.map_some], hParent.trans hOffset, ?_⟩
  rw [GraphRow.parentCount, RowMeta.view]
  have hNat : ∀ flags : UInt8, flags.toNat &&& 7 = (flags &&& RowMeta.flagParentCountMask).toNat := fun _ => rfl
  rw [hNat, hFlags, hCount, UInt8.toNat_ofNat', Nat.mod_eq_of_lt (by omega)]

theorem any_oid_iff {done : List Commit} {oid : ObjectId} :
    (done.any fun commit => commit.oid == oid) = true ↔ oid ∈ done.map Commit.oid := by
  simp only [List.any_eq_true, beq_iff_eq, List.mem_map]

/-- The slots that Dart reads of a row are those of its first seven parents. -/
theorem slots_read {long : List Commit} {row : Nat} {commit : Commit} (hRow : long[row]? = some commit) :
    (List.range (min commit.parents.length 7)).mapM (fun i =>
        ((parentSlots long).map fun slot => rowOf long slot.1)[(parentSlots (long.take row)).length + i]?) =
      some ((commit.parents.take 7).map (rowOf long)) := by
  obtain ⟨below, hBelow⟩ := parentSlots_prefix (long.take (row + 1)) (long.drop (row + 1))
  rw [List.take_append_drop, parentSlots_take hRow, List.append_assoc] at hBelow
  have hCount : min commit.parents.length 7 = (commit.parents.take 7).length := by
    rw [List.length_take, Nat.min_comm]
  rw [hCount, List.range_eq_range']
  apply mapM_range'
  intro i parent hParent
  have hAt : commit.parents[i]? = some parent := getElem?_of_prefix (List.take_prefix 7 _) hParent
  rw [← hBelow, Nat.zero_add, List.getElem?_map, List.getElem?_append_right (Nat.le_add_right _ _),
    Nat.add_sub_cancel_left, List.getElem?_append_left (by simpa using (List.getElem?_eq_some_iff.mp hAt).1),
    List.getElem?_map, hAt]
  rfl

/-- A look-up among the hashes of the first rows, by the slots of all. -/
theorem parentsOf_view {short long : List Commit} (hPrefix : short <+: long) (hRows : long.length < 2 ^ 31)
    {view : GraphSnapshotView} {row : Nat} {commit : Commit} {m : GraphRow} (hRow : long[row]? = some commit)
    (hMeta : view.rows[row]? = some m) (hOffset : m.parentOffset = (parentSlots (long.take row)).length)
    (hCount : m.parentCount = min commit.parents.length 7)
    (hPool : view.parentPool = (parentSlots long).map fun slot => rowOf long slot.1)
    (hOids : view.oidsHex = (short.map Commit.oid).map ObjectId.text) :
    view.parentsOf row =
      let known := (commit.parents.take 7).filter fun parent => long.any (·.oid == parent)
      if known.all fun parent => short.any (·.oid == parent) then some (known.map ObjectId.text) else none := by
  have hRead : (List.range m.parentCount).mapM (fun i => view.parentPool[m.parentOffset + i]?) =
      some ((commit.parents.take 7).map (rowOf long)) := by
    rw [hCount, hOffset, hPool]
    exact slots_read hRow
  have hKnown : (fun slot => decide (slot ≠ kRowBoundary)) ∘ rowOf long =
      fun parent => long.any (·.oid == parent) := by
    funext parent
    rw [Function.comp_apply, Bool.eq_iff_iff, decide_eq_true_eq, any_oid_iff, Ne, rowOf_eq_boundary hRows, not_not]
  have hLookUp (parent : ObjectId) (hMem : parent ∈ (commit.parents.take 7).filter fun parent =>
      long.any (·.oid == parent)) :
      view.oidsHex[rowOf long parent]? = if short.any (·.oid == parent) then some parent.text else none := by
    rw [hOids, List.getElem?_map, getElem?_rowOf hPrefix (any_oid_iff.mp (List.mem_filter.mp hMem).2)]
    simp only [any_oid_iff]
    split <;> rfl
  simp only [GraphSnapshotView.parentsOf, hMeta, hRead, Option.bind_eq_bind, Option.bind_some, List.filter_map,
    List.mapM_map]
  rw [hKnown]
  exact mapM_guarded hLookUp

/-- Every stage of a walk fits, if its end does. -/
theorem fits_taken (options : GraphOptions) {commits : List Commit} (hNodup : (commits.map Commit.oid).Nodup)
    (hOrder : ChildrenFirst commits) (hRows : commits.length < 2 ^ 31) (hSlots : (parentSlots commits).length < 2 ^ 31)
    (count : Nat) (finished : Bool) : (published finished (walk options (commits.take count))).Fits := by
  have hTaken : (commits.take count).map Commit.oid <+: commits.map Commit.oid :=
    (List.take_prefix count commits).map Commit.oid
  apply fits_published options (hNodup.sublist hTaken.sublist) (hOrder.of_prefix (List.take_prefix count commits))
  · rw [List.length_take, List.length_take]
    omega
  · rw [List.take_take]
    exact (parentSlots_le _ _).trans_lt hSlots

/-- Dart asks for the rows, the object ids and the parents while a walk goes on. The hash of a row is that of its
commit, and its parents are the first seven of the commit's that had come by the last of the three calls, in their
order; but the look-up throws if one of them came after the object ids were asked for. -/
theorem parentsOf_torn (options : GraphOptions) {commits : List Commit} (hNodup : (commits.map Commit.oid).Nodup)
    (hOrder : ChildrenFirst commits) (hRows : commits.length < 2 ^ 31) (hSlots : (parentSlots commits).length < 2 ^ 31)
    (stage : GraphCall → Nat × Bool) (hOids : (stage .rows).1 ≤ (stage .oids).1)
    (hPool : (stage .oids).1 ≤ (stage .parents).1) {row : Nat} {commit : Commit}
    (hRow : (emitted options commits (stage .rows).1)[row]? = some commit) :
    ∃ view,
      readGraphSnapshot
          (fun call => some (published (stage call).2 (walk options (commits.take (stage call).1)))) = some view ∧
        view.oidsHex[row]? = some commit.oid.text ∧
        view.parentsOf row =
          let known := (commit.parents.take 7).filter fun parent =>
            (emitted options commits (stage .parents).1).any (·.oid == parent)
          if known.all fun parent => (emitted options commits (stage .oids).1).any (·.oid == parent) then
            some (known.map ObjectId.text)
          else none := by
  have hPart (count : Nat) : ((commits.take count).map Commit.oid).Nodup :=
    hNodup.sublist (((List.take_prefix count commits).map Commit.oid).sublist)
  have hPartOrder (count : Nat) : ChildrenFirst (commits.take count) :=
    hOrder.of_prefix (List.take_prefix count commits)
  have hFits (call : GraphCall) := fits_taken options hNodup hOrder hRows hSlots (stage call).1 (stage call).2
  have hLong : (emitted options commits (stage .parents).1).length < 2 ^ 31 := by
    rw [emitted, List.length_take, List.length_take]
    omega
  have hRowsOids := emitted_prefix options commits hOids
  have hOidsPool := emitted_prefix options commits hPool
  have hSomeRows (call : GraphCall) (hCall : emitted options commits (stage .rows).1 <+:
      emitted options commits (stage call).1) :
      (published (stage call).2 (walk options (commits.take (stage call).1))).rows ≠ [] := by
    have hEmitted := getElem?_of_prefix hCall hRow
    have hLess := (List.getElem?_eq_some_iff.mp hEmitted).1
    rw [← List.length_pos_iff, length_rows_published]
    exact Nat.zero_lt_of_lt hLess
  have hOidsHex : (published (stage .oids).2 (walk options (commits.take (stage .oids).1))).view.oidsHex =
      ((emitted options commits (stage .oids).1).map Commit.oid).map ObjectId.text := by
    change List.map ObjectId.text (published _ _).oids = _
    rw [(published_walk _ _ _).1, oids_walk, emitted]
  refine ⟨_, readGraphSnapshot_torn hFits (hSomeRows .rows (List.prefix_refl _)) (hSomeRows .oids hRowsOids), ?_, ?_⟩
  · dsimp only
    rw [hOidsHex, List.getElem?_map, List.getElem?_map, getElem?_of_prefix hRowsOids hRow]
    rfl
  · obtain ⟨m, hMeta, hOffset, hCount⟩ := row_published options (hPart _) (hPartOrder _) (stage .rows).2 hRow
    have hTake : (emitted options commits (stage .parents).1).take row =
        (emitted options commits (stage .rows).1).take row := by
      obtain ⟨rest, hRest⟩ := hRowsOids.trans hOidsPool
      rw [← hRest, List.take_append_of_le_length (List.getElem?_eq_some_iff.mp hRow).1.le]
    have hEmitted := getElem?_of_prefix (hRowsOids.trans hOidsPool) hRow
    refine parentsOf_view hOidsPool hLong hEmitted ?_ ?_ hCount ?_ ?_
    · change (List.map RowMeta.view _)[row]? = _
      rw [List.getElem?_map, hMeta, Option.map_some]
    · rw [hTake]
      exact hOffset
    · exact (published_walk _ _ _).2.2.2.trans (awaiting_walk options (hPart _) (hPartOrder _)).pool
    · exact hOidsHex

/-- The object ids are asked for when two commits have come, the parents at the end. -/
def lateParents : GraphCall → Nat × Bool
  | .rows => (1, false)
  | .oids => (2, false)
  | _ => (3, true)

theorem parentsOf_torn_late :
    ∃ view,
      readGraphSnapshot (fun call =>
          some (published (lateParents call).2 (walk {} (wideMerge.take (lateParents call).1)))) = some view ∧
        view.oidsHex[0]? = some (ObjectId.replicate 4).text ∧
        view.parentsOf 0 =
          let known := ([.replicate 2, .replicate 3, .replicate 2, .replicate 9].take 7).filter fun parent =>
            (emitted {} wideMerge 3).any (·.oid == parent)
          if known.all fun parent => (emitted {} wideMerge 2).any (·.oid == parent) then
            some (known.map ObjectId.text)
          else none := by
  have hNodup : (wideMerge.map Commit.oid).Nodup := by decide
  have hOrder : ChildrenFirst wideMerge := by decide
  have hRow : (emitted {} wideMerge (lateParents .rows).1)[0]? =
      some { oid := .replicate 4, parents := [.replicate 2, .replicate 3, .replicate 2, .replicate 9] } := rfl
  exact parentsOf_torn {} hNodup hOrder (by decide) (by decide) lateParents (by decide) (by decide) hRow

end GraphBuilder

end GitBranchManager
