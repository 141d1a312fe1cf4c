import GitBranchManager.Graph.OpenEdges
import GitBranchManager.Graph.TrunkLane

/-! # Where merged parents are reached

A merged parent opens a column right of its child, unless an edge that is still open leads to
the same parent already: the merge then joins the leftmost such column, wherever it lies.
-/

namespace GitBranchManager

open Library.Waiting LaneAllocator

namespace GraphBuilder

/-- `other` leads to the parent of edge `i` and was open when the edge was made. -/
structure Joinable (heads : List ObjectId) (i : Nat) (e : Edge) (j : Nat) (other : Edge) : Prop where
  earlier : j < i
  parent : heads[j]? = heads[i]?
  open_at : e.childRow < other.parentRow

/-- The lane of a merged edge among the edges made before it. -/
structure WellRouted (heads : List ObjectId) (edges : List Edge) (i : Nat) (e : Edge) : Prop where
  leftmost : ∀ (j : Nat) (other : Edge), edges[j]? = some other → Joinable heads i e j other →
    e.lane ≤ other.lane
  lane : e.childLane < e.lane ∨ e.lane = kOverflowLane ∧ kOverflowLane ≤ e.childLane ∨
    ∃ (j : Nat) (other : Edge), edges[j]? = some other ∧ Joinable heads i e j other ∧
      other.lane = e.lane

/-- `heads` lists the parents the edges lead to. -/
structure Merging (heads : List ObjectId) (b : GraphBuilder) : Prop where
  length : heads.length = b.built.edges.length
  keys : ∀ item ∈ b.pending, heads[item.2.edgeId]? = some item.1
  routed : ∀ (i : Nat) (e : Edge), b.built.edges[i]? = some e → e.kind ≠ .firstParent →
    WellRouted heads b.built.edges i e

theorem Merging.arrive {heads : List ObjectId} {b : GraphBuilder} (h : Merging heads b)
    (hOpen : b.Open) (hFits : b.built.rows.length ≤ kRowBoundary) (commit : Commit) (lane : Nat)
    (lanes : LaneAllocator) : Merging heads (b.arrive commit lane lanes) := by
  -- An edge is open at a row above the new one before the arrival just when it is after.
  have hSame : ∀ (i : Nat) (e : Edge), (b.arrive commit lane lanes).built.edges[i]? = some e →
      ∃ e₀, b.built.edges[i]? = some e₀ ∧ e₀.lane = e.lane ∧ e₀.childLane = e.childLane ∧
        e₀.childRow = e.childRow ∧ e₀.kind = e.kind ∧
        ∀ row < b.built.rows.length, row < e.parentRow ↔ row < e₀.parentRow := by
    intro i e hEdge
    obtain ⟨e₀, hEdge₀, hSame, hLe, hAbove⟩ := hOpen.edge_before hFits hEdge
    refine ⟨e₀, hEdge₀, by rw [hSame], by rw [hSame], by rw [hSame], by rw [hSame], fun row hRow => ?_⟩
    exact ⟨fun hOpenAt => Nat.lt_of_lt_of_le hOpenAt hLe, hAbove row hRow⟩
  have hLength : (b.arrive commit lane lanes).built.edges.length = b.built.edges.length := by
    apply Nat.le_antisymm
    · rw [← List.getElem?_eq_none_iff, getElem?_edges_arrive, List.getElem?_eq_none (Nat.le_refl _),
        Option.map_none]
    · rw [← List.getElem?_eq_none_iff]
      have hNone := getElem?_edges_arrive b commit lane lanes
        (b.arrive commit lane lanes).built.edges.length
      rwa [List.getElem?_eq_none (Nat.le_refl _), eq_comm, Option.map_eq_none_iff] at hNone
  constructor
  · rw [hLength, h.length]
  · intro item hItem
    rw [pending_arrive, mem_discard] at hItem
    exact h.keys item hItem.1
  · intro i e hEdge hKind
    obtain ⟨e₀, hEdge₀, hLane, hChildLane, hChildRow, hKind₀, -⟩ := hSame i e hEdge
    have hRow : e.childRow < b.built.rows.length :=
      hChildRow ▸ hOpen.child e₀ (List.mem_of_getElem? hEdge₀)
    have hRouted := h.routed i e₀ hEdge₀ (hKind₀ ▸ hKind)
    constructor
    · intro j other hOther hJoin
      obtain ⟨o₀, hOther₀, hLaneO, -, -, -, hOpenO⟩ := hSame j other hOther
      rw [← hLane, ← hLaneO]
      exact hRouted.leftmost j o₀ hOther₀
        ⟨hJoin.earlier, hJoin.parent, hChildRow ▸ (hOpenO _ hRow).mp hJoin.open_at⟩
    · rw [← hLane, ← hChildLane]
      refine hRouted.lane.imp_right (Or.imp_right ?_)
      rintro ⟨j, o₀, hOther₀, hJoin, hSameLane⟩
      have hLt := (List.getElem?_eq_some_iff.mp hOther₀).1
      rw [← hLength] at hLt
      obtain ⟨o₁, hOther₁, hLaneO, -, -, -, hOpenO⟩ := hSame j _ (List.getElem?_eq_getElem hLt)
      obtain rfl : o₁ = o₀ := Option.some.inj (hOther₁.symm.trans hOther₀)
      exact ⟨j, _, List.getElem?_eq_getElem hLt, ⟨hJoin.earlier, hJoin.parent,
        (hOpenO _ hRow).mpr (hChildRow ▸ hJoin.open_at)⟩, hLaneO.symm.trans hSameLane⟩

/-- Earlier edges keep their place when an edge is added. -/
theorem WellRouted.append {heads : List ObjectId} {edges : List Edge} {i : Nat} {e : Edge}
    (h : WellRouted heads edges i e) (hLength : heads.length = edges.length) (hi : i < edges.length)
    (parent : ObjectId) (new : Edge) : WellRouted (heads ++ [parent]) (edges ++ [new]) i e := by
  have hHeads {j : Nat} (hj : j < edges.length) : (heads ++ [parent])[j]? = heads[j]? :=
    List.getElem?_append_left (hLength ▸ hj)
  constructor
  · intro j other hOther hJoin
    have hj : j < edges.length := Nat.lt_trans hJoin.earlier hi
    rw [List.getElem?_append_left hj] at hOther
    have hParent := hJoin.parent
    rw [hHeads hj, hHeads hi] at hParent
    exact h.leftmost j other hOther ⟨hJoin.earlier, hParent, hJoin.open_at⟩
  · refine h.lane.imp_right (Or.imp_right ?_)
    rintro ⟨j, other, hOther, hJoin, hLane⟩
    have hj : j < edges.length := Nat.lt_trans hJoin.earlier hi
    exact ⟨j, other, by rw [List.getElem?_append_left hj, hOther],
      ⟨hJoin.earlier, by rw [hHeads hj, hHeads hi, hJoin.parent], hJoin.open_at⟩, hLane⟩

theorem Merging.connect {heads : List ObjectId} {b : GraphBuilder} (h : Merging heads b)
    (parent : ObjectId) (row childLane lane : Nat) (color : UInt8) (kind : EdgeKind) (index : Nat)
    (first : Bool)
    (hNew : kind ≠ .firstParent → WellRouted (heads ++ [parent])
      (b.connect parent row childLane lane color kind index first).built.edges b.built.edges.length
      { childRow := row, lane, childLane, color, kind }) :
    Merging (heads ++ [parent]) (b.connect parent row childLane lane color kind index first) := by
  constructor
  · rw [edges_connect, List.length_append, List.length_append, h.length, List.length_singleton,
      List.length_singleton]
  · intro item hItem
    rw [pending_connect, List.mem_append, List.mem_singleton] at hItem
    rcases hItem with hItem | rfl
    · have hKey := h.keys item hItem
      rw [List.getElem?_append_left (List.getElem?_eq_some_iff.mp hKey).1, hKey]
    · rw [← h.length]
      exact List.getElem?_concat_length
  · intro i e hEdge hKind
    rcases Nat.lt_or_ge i b.built.edges.length with hi | hi
    · rw [edges_connect] at hEdge ⊢
      rw [List.getElem?_append_left hi] at hEdge
      exact (h.routed i e hEdge hKind).append h.length hi parent _
    · obtain rfl : i = b.built.edges.length := by
        have hLt := (List.getElem?_eq_some_iff.mp hEdge).1
        rw [edges_connect, List.length_append, List.length_singleton] at hLt
        omega
      rw [edges_connect, List.getElem?_concat_length] at hEdge
      obtain rfl := Option.some.inj hEdge
      exact hNew hKind

theorem Merging.connectMerged {heads : List ObjectId} {b : GraphBuilder} (h : Merging heads b)
    (hOpen : b.Open) {row : Nat} (hLast : b.built.rows.length = row + 1) (hFits : row < kRowBoundary)
    (lane : Nat) (kind : EdgeKind) (parent : ObjectId) (index : Nat) :
    Merging (heads ++ [parent]) (b.connectMerged row lane kind parent index) := by
  have hHead : (heads ++ [parent])[b.built.edges.length]? = some parent := by
    rw [← h.length]
    exact List.getElem?_concat_length
  -- The open edges to the parent are those that wait for it.
  have hWaits : ∀ (j : Nat) (other : Edge), b.built.edges[j]? = some other →
      (heads ++ [parent])[j]? = some parent → row < other.parentRow →
      ∃ edge ∈ waiting b.pending parent, edge.lane = other.lane := by
    intro j other hOther hParent hLater
    rcases hOpen.closed j other hOther with ⟨item, hItem, rfl⟩ | hClosed
    · obtain ⟨-, -, hLane, -⟩ := hOpen.edge_eq hItem hOther
      have hKey := h.keys item hItem
      rw [List.getElem?_append_left (List.getElem?_eq_some_iff.mp hKey).1, hKey] at hParent
      refine ⟨item.2, ?_, hLane.symm⟩
      rw [mem_waiting, ← Option.some.inj hParent]
      exact hItem
    · omega
  have hRoute := route_routed b lane parent
  rw [GraphBuilder.connectMerged]
  generalize b.route lane parent = routed at hRoute ⊢
  cases hRoute with
  | joined edge hMem hLeast =>
    refine h.connect parent row lane _ _ kind index false fun _ => ⟨?_, Or.inr (Or.inr ?_)⟩
    · intro j other hOther hJoin
      rw [edges_connect, List.getElem?_append_left hJoin.earlier] at hOther
      obtain ⟨waits, hWait, hLane⟩ := hWaits j other hOther (hJoin.parent.trans hHead) hJoin.open_at
      exact hLane ▸ hLeast waits hWait
    · obtain ⟨other, hOther, hBoundary, -, hLane, -⟩ := hOpen.edge _ (mem_waiting.mp hMem)
      have hLt := hOpen.edgeId_lt (mem_waiting.mp hMem)
      have hKey := h.keys _ (mem_waiting.mp hMem)
      refine ⟨edge.edgeId, other, ?_, ⟨hLt, ?_, ?_⟩, hLane⟩
      · rw [edges_connect, List.getElem?_append_left hLt, hOther]
      · rw [hHead, List.getElem?_append_left (List.getElem?_eq_some_iff.mp hKey).1, hKey]
      · rw [hBoundary]
        exact hFits
  | opened target lanes hNone hAlloc =>
    have h' : Merging heads { b with lanes := lanes.seed target parent } :=
      ⟨h.length, h.keys, h.routed⟩
    refine h'.connect parent row lane _ _ kind index false fun _ => ⟨?_, ?_⟩
    · intro j other hOther hJoin
      rw [edges_connect, List.getElem?_append_left hJoin.earlier] at hOther
      obtain ⟨waits, hWait, -⟩ := hWaits j other hOther (hJoin.parent.trans hHead) hJoin.open_at
      rw [hNone] at hWait
      exact absurd hWait List.not_mem_nil
    · cases hAlloc with
      | overflow =>
        rcases Nat.lt_or_ge lane kOverflowLane with hLane | hLane
        · exact Or.inl hLane
        · exact Or.inr (Or.inl ⟨rfl, hLane⟩)
      | free _ hStart => exact Or.inl hStart

theorem Merging.emit {heads : List ObjectId} {b : GraphBuilder} (h : Merging heads b)
    (hOpen : b.Open) (hFits : b.built.rows.length < kRowBoundary) (commit : Commit) :
    Merging (heads ++ commit.parents) (b.emit commit) := by
  obtain ⟨lane, lanes, -, hEmit⟩ := emit_eq b commit
  have hArrive := h.arrive hOpen hFits.le commit lane lanes
  have hSlotted := hOpen.slotted commit lane lanes
  have hDescend : ∀ color, Merging (heads ++ commit.parents) ((b.arrive commit lane lanes).descend
      b.built.rows.length lane color b.built.parentPool.length commit.parents) := by
    intro color
    suffices hRun : ∀ n, n = commit.parents.length → Slotted b.built.rows.length
        b.built.parentPool.length commit.parents.length n ((b.arrive commit lane lanes).descend
          b.built.rows.length lane color b.built.parentPool.length commit.parents) ∧
        Merging (heads ++ commit.parents.take n) ((b.arrive commit lane lanes).descend
          b.built.rows.length lane color b.built.parentPool.length commit.parents) by
      have hAll := (hRun _ rfl).2
      rwa [List.take_length] at hAll
    rintro n rfl
    refine descend_steps (motive := fun i b' => Slotted b.built.rows.length
      b.built.parentPool.length commit.parents.length i b' ∧
      Merging (heads ++ commit.parents.take i) b') ?_ ?_ ?_
    · intro _
      rw [releaseIfEnded_eq, List.take_zero, List.append_nil]
      exact ⟨hSlotted.relane _, ⟨hArrive.length, hArrive.keys, hArrive.routed⟩⟩
    · intro parent hParent
      have hPos := List.length_pos_of_mem (List.mem_of_mem_head? hParent)
      have hTake : commit.parents.take 1 = [parent] := by
        rw [List.take_one, Option.mem_def.mp hParent]
        rfl
      rw [hTake]
      exact ⟨hSlotted.connect hPos parent lane lane color .firstParent true,
        hArrive.connect parent b.built.rows.length lane lane color .firstParent _ true
          fun hKind => absurd rfl hKind⟩
    · rintro i b' kind parent _ _ hParent ⟨hSlot, hMerging⟩
      have hi := (List.getElem?_eq_some_iff.mp hParent).1
      rw [List.take_add_one, hParent, Option.toList_some, ← List.append_assoc]
      exact ⟨(hSlot.relane _).connect hi parent lane _ _ kind false,
        hMerging.connectMerged hSlot.opened hSlot.last hFits lane kind parent _⟩
  rw [hEmit]
  have h' := hDescend (lanes.colorOf lane)
  exact ⟨h'.length, h'.keys, h'.routed⟩

theorem merging_walk (options : GraphOptions) (commits : List Commit) :
    Merging ((commits.take options.maxRows.toNat).flatMap Commit.parents) (walk options commits) := by
  suffices h : ∀ done, done = commits.take options.maxRows.toNat → (walk options commits).Open ∧
      Merging (done.flatMap Commit.parents) (walk options commits) from (h _ rfl).2
  rintro done rfl
  refine walk_induction (motive := fun done b => b.Open ∧ Merging (done.flatMap Commit.parents) b)
    options commits ⟨open_new options, ?_⟩ ?_ ?_
  · exact ⟨rfl, fun _ h => absurd h List.not_mem_nil, fun i e h => by simp [new] at h⟩
  · rintro done b ⟨hOpen, hMerging⟩
    exact ⟨hOpen.markTruncated, ⟨hMerging.length, hMerging.keys, hMerging.routed⟩⟩
  · rintro done commit b _ _ _ hRows hRoom ⟨hOpen, hMerging⟩
    have hFits : b.built.rows.length < kRowBoundary := lt_kRowBoundary (hRows ▸ hRoom)
    rw [List.flatMap_append, List.flatMap_singleton]
    exact ⟨hOpen.emit commit, hMerging.emit hOpen hFits commit⟩

/-- A branch right of the trunk merges a commit that the trunk's column leads to already. -/
def rejoinedCommits : List Commit :=
  [{ oid := .replicate 5, parents := [.replicate 1] },
    { oid := .replicate 4, parents := [.replicate 3, .replicate 1] },
    { oid := .replicate 3, parents := [.replicate 1] }, { oid := .replicate 1 }]

end GraphBuilder

end GitBranchManager
