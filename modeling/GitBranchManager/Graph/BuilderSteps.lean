import GitBranchManager.Graph.GraphBuilder

/-! # What each part of `GraphBuilder::add` changes -/

namespace GitBranchManager

open Library.Waiting LaneAllocator

theorem length_eq_of_getElem?_map {α : Type} {xs ys : List α} {f : Nat → α → α}
    (h : ∀ i, xs[i]? = ys[i]?.map (f i)) : xs.length = ys.length := by
  apply Nat.le_antisymm
  · rw [← List.getElem?_eq_none_iff, h, List.getElem?_eq_none (Nat.le_refl _), Option.map_none]
  · rw [← List.getElem?_eq_none_iff]
    have hNone := h xs.length
    rwa [List.getElem?_eq_none (Nat.le_refl _), eq_comm, Option.map_eq_none_iff] at hNone

namespace GraphBuilder

section Patch

variable (b : GraphBuilder) (incoming : List PendingEdge) (row : Nat)

theorem patchIncoming_eq :
    b.patchIncoming incoming row =
      { b with
        built := { b.built with
          edges := (b.patchIncoming incoming row).built.edges
          parentPool := (b.patchIncoming incoming row).built.parentPool }
        laneRefCount := (b.patchIncoming incoming row).laneRefCount } := by
  induction incoming generalizing b with
  | nil => rfl
  | cons edge incoming ih => exact ih (patchEdge row b edge)

theorem getElem?_patchIncoming (i : Nat) :
    (b.patchIncoming incoming row).built.edges[i]? =
      b.built.edges[i]?.map fun e =>
        if i ∈ incoming.map PendingEdge.edgeId then { e with parentRow := row } else e := by
  induction incoming generalizing b with
  | nil => simp [patchIncoming]
  | cons edge incoming ih =>
    rw [patchIncoming, List.foldl_cons, ← patchIncoming, ih (patchEdge row b edge)]
    simp only [patchEdge, List.getElem?_modify, List.map_cons, List.mem_cons]
    cases b.built.edges[i]? with
    | none => rfl
    | some e =>
      by_cases hHere : edge.edgeId = i
      · simp [hHere]
      · simp [hHere, Ne.symm hHere]

theorem getElem?_pool_patchIncoming (i : Nat) :
    (b.patchIncoming incoming row).built.parentPool[i]? =
      b.built.parentPool[i]?.map fun p =>
        if i ∈ incoming.map PendingEdge.parentPoolIndex then row else p := by
  induction incoming generalizing b with
  | nil => simp [patchIncoming]
  | cons edge incoming ih =>
    rw [patchIncoming, List.foldl_cons, ← patchIncoming, ih (patchEdge row b edge)]
    simp only [patchEdge, List.getElem?_set', List.map_cons, List.mem_cons]
    cases b.built.parentPool[i]? with
    | none => simp
    | some p =>
      by_cases hHere : edge.parentPoolIndex = i
      · simp [hHere]
      · simp [hHere, Ne.symm hHere]

theorem laneRefCount_patchIncoming {lane : Nat} (hLane : lane < kMaxLanes) :
    (b.patchIncoming incoming row).laneRefCount lane =
      b.laneRefCount lane - incoming.countP fun edge => edge.lane = lane := by
  induction incoming generalizing b with
  | nil => rfl
  | cons edge incoming ih =>
    rw [patchIncoming, List.foldl_cons, ← patchIncoming, ih (patchEdge row b edge),
      List.countP_cons]
    by_cases he : edge.lane = lane
    · subst he
      simp only [patchEdge, isOverflow_eq_false.mpr hLane, Bool.not_false, Bool.true_and]
      split
      · simp
        omega
      next hZero =>
        simp only [decide_eq_true_eq, Nat.not_lt, Nat.le_zero] at hZero
        simp [hZero]
    · simp only [patchEdge, he, decide_false, Bool.false_eq_true, if_false, Nat.add_zero]
      split
      · rw [Function.update_of_ne (Ne.symm he)]
      · rfl

end Patch

section Release

variable (b : GraphBuilder) (incoming : List PendingEdge) (lane : Nat)

theorem releaseIfEnded_eq (lane : Nat) :
    b.releaseIfEnded lane = { b with lanes := (b.releaseIfEnded lane).lanes } := by
  rw [releaseIfEnded]
  split <;> rfl

theorem releaseOthers_eq :
    b.releaseOthers incoming lane = { b with lanes := (b.releaseOthers incoming lane).lanes } := by
  induction incoming generalizing b with
  | nil => rfl
  | cons edge incoming ih =>
    rw [releaseOthers, List.foldl_cons, ← releaseOthers, ih]
    split
    · rw [releaseIfEnded_eq]
    · rfl

@[simp] theorem inUse_releaseIfEnded (l : Nat) :
    (b.releaseIfEnded lane).lanes.inUse l = true ↔
      b.lanes.inUse l = true ∧ ¬(l = lane ∧ b.laneRefCount lane = 0) := by
  rw [releaseIfEnded]
  split
  next h =>
    rw [Bool.and_eq_true, Bool.not_eq_true', isOverflow_eq_false, beq_iff_eq] at h
    rw [inUse_release _ h.1, Bool.and_eq_true, decide_eq_true_eq]
    simp only [h.2, and_true, ne_comm]
  next h =>
    constructor
    · intro hUse
      refine ⟨hUse, ?_⟩
      rintro ⟨rfl, hZero⟩
      exact h (by simp [hZero, inUse_lt hUse])
    · exact fun hUse => hUse.1

theorem lanes_releaseIfEnded : ∃ used, (b.releaseIfEnded lane).lanes = { b.lanes with used } ∧
    ∀ l, used.getLsbD l = true → b.lanes.used.getLsbD l = true := by
  rw [releaseIfEnded]
  split
  · rw [release]
    split
    · exact ⟨_, rfl, fun _ h => h⟩
    · refine ⟨_, rfl, fun l h => ?_⟩
      rw [BitVec.getLsbD_and, Bool.and_eq_true] at h
      exact h.1
  · exact ⟨_, rfl, fun _ h => h⟩

theorem lanes_releaseOthers : ∃ used, (b.releaseOthers incoming lane).lanes = { b.lanes with used } ∧
    ∀ l, used.getLsbD l = true → b.lanes.used.getLsbD l = true := by
  induction incoming generalizing b with
  | nil => exact ⟨_, rfl, fun _ h => h⟩
  | cons edge incoming ih =>
    rw [releaseOthers, List.foldl_cons, ← releaseOthers]
    split
    · obtain ⟨used, hLanes, hUsed⟩ := lanes_releaseIfEnded b edge.lane
      obtain ⟨used', hLanes', hUsed'⟩ := ih (b.releaseIfEnded edge.lane)
      rw [hLanes] at hLanes' hUsed'
      exact ⟨used', hLanes', fun l h => hUsed l (hUsed' l h)⟩
    · exact ih b

theorem inUse_releaseOthers (l : Nat) :
    (b.releaseOthers incoming lane).lanes.inUse l = true ↔
      b.lanes.inUse l = true ∧
        ¬(l ≠ lane ∧ b.laneRefCount l = 0 ∧ ∃ edge ∈ incoming, edge.lane = l) := by
  induction incoming generalizing b with
  | nil => simp [releaseOthers]
  | cons edge incoming ih =>
    rw [releaseOthers, List.foldl_cons, ← releaseOthers, ih]
    split
    next h =>
      have hCount : (b.releaseIfEnded edge.lane).laneRefCount = b.laneRefCount := by
        rw [releaseIfEnded_eq]
      rw [inUse_releaseIfEnded, hCount]
      by_cases he : l = edge.lane
      · subst he
        simp [h]
        tauto
      · simp [he, Ne.symm he]
    next h =>
      rw [not_not] at h
      by_cases he : l = lane
      · simp [he]
      · simp [he, h, Ne.symm he]

end Release

section ChooseLane

theorem foldl_better_mem (first : PendingEdge) (rest : List PendingEdge) :
    rest.foldl better first ∈ first :: rest := by
  induction rest generalizing first with
  | nil => exact List.mem_singleton_self first
  | cons edge rest ih =>
    have hMem := ih (better first edge)
    rw [List.foldl_cons]
    rw [better] at hMem ⊢
    split at hMem
    next h =>
      rw [if_pos h]
      exact List.mem_cons_of_mem _ hMem
    next h =>
      rw [if_neg h]
      rcases List.mem_cons.mp hMem with he | hMem
      · exact List.mem_cons.mpr (Or.inl he)
      · exact List.mem_cons_of_mem _ (List.mem_cons_of_mem _ hMem)

theorem rank_foldl_better (first : PendingEdge) (rest : List PendingEdge) :
    ∀ edge ∈ first :: rest, rank (rest.foldl better first) < rank edge ∨
      rank (rest.foldl better first) = rank edge ∧ (rest.foldl better first).lane ≤ edge.lane := by
  induction rest generalizing first with
  | nil => simp
  | cons edge rest ih =>
    have hBest := ih (better first edge)
    have hHead := hBest _ List.mem_cons_self
    rw [List.foldl_cons]
    generalize rest.foldl better (better first edge) = best at hBest hHead
    have hFirst : ∀ e ∈ [first, edge], rank (better first edge) < rank e ∨
        rank (better first edge) = rank e ∧ (better first edge).lane ≤ e.lane := by
      rw [better]
      split <;> simp <;> omega
    rintro e he
    rw [List.mem_cons, List.mem_cons, ← or_assoc] at he
    rcases he with he | he
    · have := hFirst e (by simpa using he)
      omega
    · exact hBest e (List.mem_cons_of_mem _ he)

theorem chooseLane_mem {incoming : List PendingEdge} (h : incoming ≠ []) :
    ∃ edge ∈ incoming, edge.lane = chooseLane incoming := by
  cases incoming with
  | nil => exact absurd rfl h
  | cons first rest => exact ⟨_, foldl_better_mem first rest, rfl⟩

theorem chooseLane_le {incoming : List PendingEdge} {edge : PendingEdge} (hMem : edge ∈ incoming)
    (hFirst : edge.firstParent = true) : chooseLane incoming ≤ edge.lane := by
  cases incoming with
  | nil => cases hMem
  | cons first rest =>
    have hBest := rank_foldl_better first rest edge hMem
    have hRank : rank edge = 0 := if_pos hFirst
    simp only [chooseLane]
    omega

end ChooseLane

section Route

theorem foldl_min_mem (first : PendingEdge) (rest : List PendingEdge) :
    ∃ edge ∈ first :: rest,
      edge.lane = rest.foldl (fun target edge => min target edge.lane) first.lane := by
  suffices h : ∀ target, rest.foldl (fun target edge => min target edge.lane) target = target ∨
      ∃ edge ∈ rest, edge.lane = rest.foldl (fun target edge => min target edge.lane) target by
    rcases h first.lane with h | ⟨edge, hMem, h⟩
    · exact ⟨first, List.mem_cons_self, h.symm⟩
    · exact ⟨edge, List.mem_cons_of_mem _ hMem, h⟩
  induction rest with
  | nil => exact fun target => Or.inl rfl
  | cons edge rest ih =>
    intro target
    rw [List.foldl_cons]
    rcases ih (min target edge.lane) with h | ⟨e, hMem, h⟩
    · rcases Nat.le_total target edge.lane with hLe | hLe
      · exact Or.inl (by rw [h, Nat.min_eq_left hLe])
      · exact Or.inr ⟨edge, List.mem_cons_self, by rw [h, Nat.min_eq_right hLe]⟩
    · exact Or.inr ⟨e, List.mem_cons_of_mem _ hMem, h⟩

theorem foldl_min_le (first : PendingEdge) (rest : List PendingEdge) : ∀ edge ∈ first :: rest,
    rest.foldl (fun target edge => min target edge.lane) first.lane ≤ edge.lane := by
  suffices h : ∀ target, rest.foldl (fun target edge => min target edge.lane) target ≤ target ∧
      ∀ edge ∈ rest, rest.foldl (fun target edge => min target edge.lane) target ≤ edge.lane by
    intro edge hMem
    rcases List.mem_cons.mp hMem with rfl | hMem
    · exact (h edge.lane).1
    · exact (h first.lane).2 edge hMem
  induction rest with
  | nil => exact fun target => ⟨Nat.le_refl target, fun _ h => absurd h List.not_mem_nil⟩
  | cons edge rest ih =>
    intro target
    obtain ⟨hTarget, hRest⟩ := ih (min target edge.lane)
    rw [List.foldl_cons]
    refine ⟨hTarget.trans (Nat.min_le_left _ _), fun e he => ?_⟩
    rcases List.mem_cons.mp he with rfl | he
    · exact hTarget.trans (Nat.min_le_right _ _)
    · exact hRest e he

/-- A merged parent is reached in the leftmost lane that leads to it already, or in one the
allocator hands out right of the child. -/
inductive Routed (b : GraphBuilder) (lane : Nat) (parent : ObjectId) :
    Nat × LaneAllocator → Prop
  | joined (edge : PendingEdge) (hMem : edge ∈ waiting b.pending parent)
      (hLeast : ∀ other ∈ waiting b.pending parent, edge.lane ≤ other.lane) :
      Routed b lane parent (edge.lane, b.lanes)
  | opened (target : Nat) (lanes : LaneAllocator) (hNone : waiting b.pending parent = [])
      (hAlloc : Allocated b.lanes (lane + 1) (target, lanes)) :
      Routed b lane parent (target, lanes.seed target parent)

theorem route_routed (b : GraphBuilder) (lane : Nat) (parent : ObjectId) :
    Routed b lane parent (b.route lane parent) := by
  rw [route]
  split
  next first rest hWaiting =>
    obtain ⟨edge, hMem, hLane⟩ := foldl_min_mem first rest
    have hLeast := foldl_min_le first rest
    rw [← hLane] at hLeast ⊢
    exact .joined edge (hWaiting ▸ hMem) (hWaiting ▸ hLeast)
  next hWaiting => exact .opened _ _ hWaiting (allocateAfter_allocated b.lanes lane)

end Route

section Occupy

/-- The lane of a new row: lane 0 for the trunk tip, a new lane for a tip, else one of the
incoming lanes. -/
inductive Occupied (b : GraphBuilder) (oid : ObjectId) : Nat × LaneAllocator → Prop
  | trunk (hTrunk : b.isTrunkTip oid = true) : Occupied b oid (0, b.lanes.seed 0 oid)
  | tip (lane : Nat) (lanes : LaneAllocator) (hTrunk : b.isTrunkTip oid = false)
      (hNone : waiting b.pending oid = []) (hAlloc : Allocated b.lanes 0 (lane, lanes)) :
      Occupied b oid (lane, lanes.seed lane oid)
  | chosen (hTrunk : b.isTrunkTip oid = false) (hSome : waiting b.pending oid ≠ []) :
      Occupied b oid (chooseLane (waiting b.pending oid), b.lanes)

theorem occupy_occupied (b : GraphBuilder) (oid : ObjectId) :
    Occupied b oid (b.occupy oid (waiting b.pending oid)) := by
  rw [occupy]
  split
  next hTrunk => exact .trunk hTrunk
  next hTrunk =>
    rw [Bool.not_eq_true] at hTrunk
    split
    next hNone => exact .tip _ _ hTrunk (List.isEmpty_iff.mp hNone) (allocateLeftmost_allocated _)
    next hSome => exact .chosen hTrunk fun h => hSome (List.isEmpty_iff.mpr h)

end Occupy

section Arrive

variable (b : GraphBuilder) (commit : Commit) (lane : Nat) (lanes : LaneAllocator)

@[simp] theorem options_arrive : (b.arrive commit lane lanes).options = b.options := by
  rw [arrive, releaseOthers_eq, patchIncoming_eq]
  rfl

@[simp] theorem pending_arrive :
    (b.arrive commit lane lanes).pending = discard b.pending commit.oid := by
  rw [arrive, releaseOthers_eq, patchIncoming_eq]
  rfl

@[simp] theorem oids_arrive :
    (b.arrive commit lane lanes).built.oids = b.built.oids ++ [commit.oid] := by
  rw [arrive, releaseOthers_eq, patchIncoming_eq]
  rfl

theorem rows_pushRow (color : UInt8) : ∃ row : RowMeta, row.lane = lane ∧
    (b.pushRow commit lane color).built.rows = b.built.rows ++ [row] :=
  ⟨_, rfl, rfl⟩

theorem rows_arrive : ∃ row : RowMeta, row.lane = lane ∧
    (b.arrive commit lane lanes).built.rows = b.built.rows ++ [row] := by
  rw [arrive]
  refine (rows_pushRow _ commit lane (lanes.colorOf lane)).imp fun row h => ⟨h.1, h.2.trans ?_⟩
  rw [releaseOthers_eq, patchIncoming_eq]

theorem getElem?_edges_arrive (i : Nat) :
    (b.arrive commit lane lanes).built.edges[i]? = b.built.edges[i]?.map fun e =>
      if i ∈ (waiting b.pending commit.oid).map PendingEdge.edgeId then
        { e with parentRow := b.built.rows.length } else e := by
  rw [arrive, releaseOthers_eq]
  exact getElem?_patchIncoming _ _ _ i

theorem pool_arrive : ∃ patched,
    (b.arrive commit lane lanes).built.parentPool =
      patched ++ List.replicate commit.parents.length kRowBoundary ∧
    ∀ i, patched[i]? = b.built.parentPool[i]?.map fun p =>
      if i ∈ (waiting b.pending commit.oid).map PendingEdge.parentPoolIndex then
        b.built.rows.length else p := by
  refine ⟨_, rfl, fun i => ?_⟩
  rw [releaseOthers_eq]
  exact getElem?_pool_patchIncoming _ _ _ i

/-- An edge of the arrived builder is unchanged, or one of those that waited for the commit
and now ends at its row. -/
theorem mem_edges_arrive {e : Edge} (h : e ∈ (b.arrive commit lane lanes).built.edges) :
    ∃ e₀ ∈ b.built.edges, e = e₀ ∨ ∃ edge ∈ waiting b.pending commit.oid,
      b.built.edges[edge.edgeId]? = some e₀ ∧ e = { e₀ with parentRow := b.built.rows.length } := by
  obtain ⟨i, hi⟩ := List.mem_iff_getElem?.mp h
  rw [getElem?_edges_arrive, Option.map_eq_some_iff] at hi
  obtain ⟨e₀, hi, rfl⟩ := hi
  refine ⟨e₀, List.mem_of_getElem? hi, ?_⟩
  split
  next hWait =>
    obtain ⟨edge, hMem, rfl⟩ := List.mem_map.mp hWait
    exact Or.inr ⟨edge, hMem, hi, rfl⟩
  next => exact Or.inl rfl

theorem laneRefCount_arrive {l : Nat} (hl : l < kMaxLanes) :
    (b.arrive commit lane lanes).laneRefCount l =
      b.laneRefCount l - (waiting b.pending commit.oid).countP fun edge => edge.lane = l := by
  rw [arrive, releaseOthers_eq]
  exact laneRefCount_patchIncoming _ _ _ hl

theorem lanes_arrive : ∃ used, (b.arrive commit lane lanes).lanes = { lanes with used } ∧
    ∀ l, used.getLsbD l = true → lanes.used.getLsbD l = true := by
  obtain ⟨used, hLanes, hUsed⟩ := lanes_releaseOthers
    (({ b with pending := discard b.pending commit.oid, lanes }).patchIncoming
      (waiting b.pending commit.oid) b.built.rows.length) (waiting b.pending commit.oid) lane
  rw [patchIncoming_eq] at hLanes hUsed
  refine ⟨used, ?_, hUsed⟩
  rw [arrive, patchIncoming_eq]
  exact hLanes

theorem inUse_arrive {l : Nat} (hl : l < kMaxLanes) :
    (b.arrive commit lane lanes).lanes.inUse l = true ↔ lanes.inUse l = true ∧
      ¬(l ≠ lane ∧ (b.arrive commit lane lanes).laneRefCount l = 0 ∧
        ∃ edge ∈ waiting b.pending commit.oid, edge.lane = l) := by
  have h := inUse_releaseOthers (({ b with pending := discard b.pending commit.oid, lanes }).patchIncoming
    (waiting b.pending commit.oid) b.built.rows.length) (waiting b.pending commit.oid) lane l
  rw [laneRefCount_arrive _ _ _ _ hl]
  rw [laneRefCount_patchIncoming _ _ _ hl] at h
  have hLanes : ∀ b' : GraphBuilder, (b'.patchIncoming (waiting b.pending commit.oid)
      b.built.rows.length).lanes = b'.lanes := by
    intro b'
    rw [patchIncoming_eq]
  rw [hLanes] at h
  exact h

end Arrive

section Connect

variable (b : GraphBuilder) (parent : ObjectId) (row childLane lane : Nat) (color : UInt8)
  (kind : EdgeKind) (index : Nat) (first : Bool)

@[simp] theorem options_connect :
    (b.connect parent row childLane lane color kind index first).options = b.options := rfl

@[simp] theorem lanes_connect :
    (b.connect parent row childLane lane color kind index first).lanes = b.lanes := rfl

@[simp] theorem oids_connect :
    (b.connect parent row childLane lane color kind index first).built.oids = b.built.oids := rfl

@[simp] theorem rows_connect :
    (b.connect parent row childLane lane color kind index first).built.rows = b.built.rows := rfl

@[simp] theorem edges_connect :
    (b.connect parent row childLane lane color kind index first).built.edges =
      b.built.edges ++ [{ childRow := row, lane, childLane, color, kind }] := rfl

@[simp] theorem pending_connect :
    (b.connect parent row childLane lane color kind index first).pending = b.pending ++
      [(parent,
        { edgeId := b.built.edges.length, parentPoolIndex := index, lane, childRow := row, color,
          firstParent := first })] := rfl

@[simp] theorem pool_connect :
    (b.connect parent row childLane lane color kind index first).built.parentPool =
      b.built.parentPool := rfl

theorem laneRefCount_connect {l : Nat} (hl : l < kMaxLanes) :
    (b.connect parent row childLane lane color kind index first).laneRefCount l =
      b.laneRefCount l + if lane = l then 1 else 0 := by
  simp only [connect, createEdge]
  by_cases he : lane = l
  · subst he
    simp [isOverflow_eq_false.mpr hl]
  · simp only [he, if_false, Nat.add_zero]
    split
    · rfl
    · rw [Function.update_of_ne (Ne.symm he)]

end Connect

section Descend

variable {b : GraphBuilder} {row lane : Nat} {color : UInt8} {parentOffset : Nat}
  {parents : List ObjectId}

/-- A property of the edges made so far: `motive i` holds once the first `i` parents of the
row are connected. -/
theorem descend_steps {motive : Nat → GraphBuilder → Prop}
    (root : parents = [] → motive 0 (b.releaseIfEnded lane))
    (firstParent : ∀ parent ∈ parents.head?, motive 1 (b.connectFirst row lane color parentOffset parent))
    (merged : ∀ i b kind parent, 0 < i → kind ≠ .firstParent → parents[i]? = some parent →
      motive i b → motive (i + 1) (b.connectMerged row lane kind parent (parentOffset + i))) :
    motive parents.length (b.descend row lane color parentOffset parents) := by
  cases parents with
  | nil => exact root rfl
  | cons parent rest =>
    rw [descend]
    generalize hKind : (if 1 < rest.length then EdgeKind.octopus else .mergeParent) = kind
    have hMerge : kind ≠ .firstParent := by
      rw [← hKind]
      split <;> decide
    suffices hFold : ∀ (ps : List ObjectId) (i : Nat) (b : GraphBuilder), 0 < i →
        (∀ j, ps[j]? = (parent :: rest)[i + j]?) → motive i b →
        motive (i + ps.length) ((ps.zipIdx (parentOffset + i)).foldl
          (fun b entry => b.connectMerged row lane kind entry.1 entry.2) b) by
      rw [List.length_cons, Nat.add_comm]
      exact hFold rest 1 _ Nat.one_pos (fun j => by rw [Nat.add_comm, List.getElem?_cons_succ])
        (firstParent parent rfl)
    intro ps
    induction ps with
    | nil => exact fun i b _ _ hb => hb
    | cons p ps ih =>
      intro i b hPos hParents hb
      rw [List.zipIdx_cons, List.foldl_cons, List.length_cons, Nat.add_comm ps.length, ← Nat.add_assoc,
        Nat.add_assoc parentOffset]
      refine ih (i + 1) _ (Nat.succ_pos i) (fun j => ?_) (merged i b kind p hPos hMerge ?_ hb)
      · rw [Nat.add_right_comm, Nat.add_assoc, ← hParents, List.getElem?_cons_succ]
      · rw [← Nat.add_zero i, ← hParents, List.getElem?_cons_zero]

/-- A property the edges of one row keep: what the root or the first parent establishes and
every merged parent preserves holds once the row is connected. -/
theorem descend_induction {motive : GraphBuilder → Prop}
    (root : parents = [] → motive (b.releaseIfEnded lane))
    (firstParent : ∀ parent ∈ parents.head?, motive (b.connectFirst row lane color parentOffset parent))
    (merged : ∀ b kind parent index, kind ≠ .firstParent → motive b →
      motive (b.connectMerged row lane kind parent index)) :
    motive (b.descend row lane color parentOffset parents) :=
  descend_steps (motive := fun _ => motive) root firstParent
    fun _ b kind parent _ hKind _ hb => merged b kind parent _ hKind hb

end Descend

section Snapshot

theorem mem_foldl_reopen {e : Edge} {pending : List (ObjectId × PendingEdge)} {edges : List Edge}
    (h : e ∈ pending.foldl (fun edges item => reopen edges item.2) edges) :
    ∃ e₀ ∈ edges, e = e₀ ∨ e = { e₀ with parentRow := kRowBoundary } := by
  induction pending generalizing edges with
  | nil => exact ⟨e, h, Or.inl rfl⟩
  | cons item pending ih =>
    obtain ⟨e₁, hMem, hEq⟩ := ih h
    obtain ⟨i, hi⟩ := List.mem_iff_getElem?.mp hMem
    dsimp only [reopen] at hi
    rw [List.getElem?_modify, Option.map_eq_map, Option.map_eq_some_iff] at hi
    obtain ⟨e₀, hi, rfl⟩ := hi
    refine ⟨e₀, List.mem_of_getElem? hi, ?_⟩
    split at hEq
    · rcases hEq with rfl | rfl <;> exact Or.inr rfl
    · exact hEq

theorem mem_edges_snapshot {b : GraphBuilder} {e : Edge} (h : e ∈ b.snapshot.edges)
    (hParent : e.parentRow ≠ kRowBoundary) : e ∈ b.built.edges := by
  rw [snapshot] at h
  dsimp only at h
  split at h
  · exact h
  · obtain ⟨e₀, hMem, rfl | rfl⟩ := mem_foldl_reopen h
    · exact hMem
    · exact absurd rfl hParent

theorem mem_edges_finish {b : GraphBuilder} {e : Edge} (h : e ∈ b.finish.built.edges)
    (hParent : e.parentRow ≠ kRowBoundary) : e ∈ b.built.edges := by
  obtain ⟨e₀, hMem, rfl | rfl⟩ := mem_foldl_reopen h
  · exact hMem
  · exact absurd rfl hParent

theorem getElem?_rows_finish {b : GraphBuilder} {row : Nat} {m : RowMeta}
    (h : b.built.rows[row]? = some m) :
    ∃ m', b.finish.built.rows[row]? = some m' ∧ m'.lane = m.lane := by
  suffices hFold : ∀ (pending : List (ObjectId × PendingEdge)) (rows : List RowMeta) (m : RowMeta),
      rows[row]? = some m →
      ∃ m', (pending.foldl (fun rows item => markBoundary rows item.2) rows)[row]? = some m' ∧
        m'.lane = m.lane from hFold b.pending b.built.rows m h
  intro pending
  induction pending with
  | nil => exact fun rows m h => ⟨m, h, rfl⟩
  | cons item pending ih =>
    intro rows m h
    have hMark : ∃ m₁, (markBoundary rows item.2)[row]? = some m₁ ∧ m₁.lane = m.lane := by
      rw [markBoundary, List.getElem?_modify, h]
      refine ⟨_, rfl, ?_⟩
      split <;> rfl
    obtain ⟨m₁, hRow, hLane⟩ := hMark
    exact (ih _ m₁ hRow).imp fun m' hm' => ⟨hm'.1, hm'.2.trans hLane⟩

end Snapshot

section Walk

theorem descend_frame (b : GraphBuilder) (row lane : Nat) (color : UInt8) (parentOffset : Nat)
    (parents : List ObjectId) :
    (b.descend row lane color parentOffset parents).options = b.options ∧
      (b.descend row lane color parentOffset parents).built.oids = b.built.oids ∧
      (b.descend row lane color parentOffset parents).built.rows = b.built.rows := by
  refine descend_induction (motive := fun b' => b'.options = b.options ∧
    b'.built.oids = b.built.oids ∧ b'.built.rows = b.built.rows) ?_ ?_ ?_
  · intro _
    rw [releaseIfEnded_eq]
    exact ⟨rfl, rfl, rfl⟩
  · intro parent _
    exact ⟨rfl, rfl, rfl⟩
  · intro b' kind parent index _ hb
    rw [connectMerged, options_connect, oids_connect, rows_connect]
    exact hb

theorem mem_pending_descend {b : GraphBuilder} {item : ObjectId × PendingEdge}
    (h : item ∈ b.pending) (row lane : Nat) (color : UInt8) (parentOffset : Nat)
    (parents : List ObjectId) : item ∈ (b.descend row lane color parentOffset parents).pending := by
  refine descend_induction (motive := fun b' => item ∈ b'.pending) ?_ ?_ ?_
  · intro _
    rw [releaseIfEnded_eq]
    exact h
  · exact fun _ _ => List.mem_append_left _ h
  · exact fun _ _ _ _ _ hb => List.mem_append_left _ hb

theorem mem_pending_descend_first (b : GraphBuilder) (row lane : Nat) (color : UInt8)
    (parentOffset : Nat) {parents : List ObjectId} {parent : ObjectId}
    (hParent : parents.head? = some parent) :
    ∃ edge, (parent, edge) ∈ (b.descend row lane color parentOffset parents).pending ∧
      edge.firstParent = true ∧ edge.lane = lane := by
  refine descend_induction (motive := fun b' => ∃ edge, (parent, edge) ∈ b'.pending ∧
    edge.firstParent = true ∧ edge.lane = lane) ?_ ?_ ?_
  · rintro rfl
    cases hParent
  · intro first hFirst
    obtain rfl := Option.some.inj (hParent.symm.trans hFirst)
    exact ⟨_, List.mem_append_right _ (List.mem_singleton_self _), rfl, rfl⟩
  · rintro b' _ _ _ _ ⟨edge, hMem, hEdge⟩
    exact ⟨edge, List.mem_append_left _ hMem, hEdge⟩

theorem emit_eq (b : GraphBuilder) (commit : Commit) : ∃ lane lanes,
    Occupied b commit.oid (lane, lanes) ∧ b.emit commit = ((b.arrive commit lane lanes).descend
      b.built.rows.length lane (lanes.colorOf lane) b.built.parentPool.length
      commit.parents).recordLaneCount :=
  ⟨_, _, occupy_occupied b commit.oid, rfl⟩

@[simp] theorem options_emit (b : GraphBuilder) (commit : Commit) :
    (b.emit commit).options = b.options := by
  obtain ⟨lane, lanes, _, hEmit⟩ := emit_eq b commit
  rw [hEmit]
  exact (descend_frame _ _ _ _ _ _).1.trans (options_arrive b commit lane lanes)

@[simp] theorem oids_emit (b : GraphBuilder) (commit : Commit) :
    (b.emit commit).built.oids = b.built.oids ++ [commit.oid] := by
  obtain ⟨lane, lanes, _, hEmit⟩ := emit_eq b commit
  rw [hEmit]
  exact (descend_frame _ _ _ _ _ _).2.1.trans (oids_arrive b commit lane lanes)

@[simp] theorem length_rows_emit (b : GraphBuilder) (commit : Commit) :
    (b.emit commit).built.rows.length = b.built.rows.length + 1 := by
  obtain ⟨lane, lanes, _, hEmit⟩ := emit_eq b commit
  obtain ⟨row, _, hRows⟩ := rows_arrive b commit lane lanes
  rw [hEmit]
  refine (congrArg List.length ((descend_frame _ _ _ _ _ _).2.2.trans hRows)).trans ?_
  rw [List.length_append, List.length_singleton]

/-- What holds of a walk: the rows are those of the commits below the row cap, and what a
new builder has and every emission keeps, the walk has. -/
theorem walk_induction {motive : List Commit → GraphBuilder → Prop} (options : GraphOptions)
    (commits : List Commit) (new : motive [] (new options))
    (mark : ∀ done b, motive done b → motive done b.markTruncated)
    (emit : ∀ done commit b, done ++ [commit] <+: commits → b.options = options →
      b.built.oids = done.map Commit.oid → b.built.rows.length = done.length →
      done.length < options.maxRows.toNat → motive done b →
      motive (done ++ [commit]) (b.emit commit)) :
    motive (commits.take options.maxRows.toNat) (walk options commits) := by
  suffices h : ∀ done, done <+: commits →
      (walk options done).options = options ∧
      (walk options done).built.oids = (done.take options.maxRows.toNat).map Commit.oid ∧
      (walk options done).built.rows.length = (done.take options.maxRows.toNat).length ∧
      motive (done.take options.maxRows.toNat) (walk options done) from
    (h commits (List.prefix_refl commits)).2.2.2
  intro done hDone
  induction done using List.reverseRecOn with
  | nil => exact ⟨rfl, by simp [walk, GraphBuilder.new], by simp [walk, GraphBuilder.new], by simpa [walk] using new⟩
  | append_singleton done commit ih =>
    obtain ⟨hOptions, hOids, hRows, hMotive⟩ := ih ((List.prefix_append done [commit]).trans hDone)
    rw [walk, List.foldl_append, ← walk, List.foldl_cons, List.foldl_nil, add]
    rw [List.length_take] at hRows
    split
    next hFull =>
      rw [hOptions, hRows] at hFull
      have hTake : (done ++ [commit]).take options.maxRows.toNat = done.take options.maxRows.toNat := by
        rw [List.take_append_of_le_length (by omega)]
      rw [hTake]
      exact ⟨hOptions, hOids, by rw [List.length_take]; exact hRows, mark _ _ hMotive⟩
    next hRoom =>
      rw [hOptions, hRows] at hRoom
      have hLt : done.length < options.maxRows.toNat := by omega
      rw [List.take_of_length_le (by omega)] at hOids hMotive
      rw [List.take_of_length_le (by simp; omega)]
      refine ⟨by rw [options_emit, hOptions], by rw [oids_emit, hOids]; simp, ?_, ?_⟩
      · rw [length_rows_emit, hRows]
        simp
        omega
      · exact emit done commit _ hDone hOptions hOids (by omega) hLt hMotive

theorem options_walk (options : GraphOptions) (commits : List Commit) :
    (walk options commits).options = options :=
  walk_induction (motive := fun _ b => b.options = options) options commits rfl
    (fun _ _ h => h) fun _ commit b _ _ _ _ _ h => (options_emit b commit).trans h

theorem oids_walk (options : GraphOptions) (commits : List Commit) :
    (walk options commits).built.oids =
      (commits.take options.maxRows.toNat).map Commit.oid :=
  walk_induction (motive := fun done b => b.built.oids = done.map Commit.oid) options commits rfl
    (fun _ _ h => h) fun done commit b _ _ hOids _ _ _ => by simp [hOids]

theorem length_rows_walk (options : GraphOptions) (commits : List Commit) :
    (walk options commits).built.rows.length = (commits.take options.maxRows.toNat).length :=
  walk_induction (motive := fun done b => b.built.rows.length = done.length) options commits rfl
    (fun _ _ h => h) fun done commit b _ _ _ hRows _ _ => by simp [hRows]

/-- Below the row cap no row has the number that marks an open end. -/
theorem lt_kRowBoundary {options : GraphOptions} {rows : Nat} (h : rows < options.maxRows.toNat) :
    rows < kRowBoundary := by
  have hMax := options.maxRows.toNat_lt
  rw [kRowBoundary]
  omega

end Walk

end GraphBuilder

end GitBranchManager
