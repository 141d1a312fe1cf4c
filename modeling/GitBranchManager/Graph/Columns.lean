import GitBranchManager.Graph.BuilderSteps

/-! # Which commit each column leads to

Below the overflow lane the pending edges of one column all wait for one commit, a column's
reference count is the number of its pending edges, and a column is in use exactly when it
has pending edges, is the reserved trunk column, or is held for the row being added.
-/

namespace GitBranchManager

open Library.Waiting LaneAllocator

namespace GraphBuilder

/-- Lane 0 is kept for a trunk tip that has not been emitted. -/
def Reserved (b : GraphBuilder) : Prop :=
  b.options.trunkTip.isNull = false ∧ b.options.trunkTip ∉ b.built.oids

structure Columns (b : GraphBuilder) (held : Option Nat) : Prop where
  exclusive : Exclusive PendingEdge.lane (· < kMaxLanes) b.pending
  refCount : ∀ lane < kMaxLanes, b.laneRefCount lane = holders PendingEdge.lane b.pending lane
  inUse : ∀ lane < kMaxLanes, b.lanes.inUse lane = true ↔
    0 < holders PendingEdge.lane b.pending lane ∨ lane = 0 ∧ b.Reserved ∨ held = some lane
  heldFree : ∀ lane < kMaxLanes, held = some lane → ∀ item ∈ b.pending, item.2.lane ≠ lane
  trunkFree : b.Reserved → held ≠ some 0 ∧ ∀ item ∈ b.pending, item.2.lane ≠ 0

theorem columns_new (options : GraphOptions) : (new options).Columns none := by
  refine ⟨.nil, fun _ _ => rfl, ?_, ?_, ?_⟩
  · intro lane hLane
    simp only [new, Reserved, List.not_mem_nil, not_false_eq_true, and_true, holders_nil,
      Nat.lt_irrefl, false_or, reduceCtorEq, or_false]
    split
    next hNull => simp [LaneAllocator.inUse, hNull]
    next hTip =>
      rw [Bool.not_eq_true] at hTip
      rw [reserve, if_neg (by decide), inUse_markUsed _ (by decide), hTip]
      simp [LaneAllocator.inUse, eq_comm]
  · intro lane _ hHeld
    exact absurd hHeld (by simp)
  · intro _
    constructor
    · simp
    · intro item hItem
      exact absurd hItem List.not_mem_nil

theorem Columns.hold_overflow {b : GraphBuilder} (h : b.Columns none) {lane : Nat}
    (hLane : kMaxLanes ≤ lane) : b.Columns (some lane) := by
  refine ⟨h.exclusive, h.refCount, ?_, ?_, ?_⟩
  · intro l hl
    have hne : ¬some lane = some l := fun he => by injection he; omega
    rw [h.inUse l hl]
    simp only [reduceCtorEq, hne]
  · intro l hl he
    injection he
    omega
  · intro hReserved
    refine ⟨fun he => ?_, (h.trunkFree hReserved).2⟩
    injection he with he
    rw [he] at hLane
    exact absurd hLane (by decide)

theorem Columns.allocated {b : GraphBuilder} (h : b.Columns none) {start lane : Nat}
    {lanes : LaneAllocator} (hAlloc : Allocated b.lanes start (lane, lanes)) (oid : ObjectId) :
    ({ b with lanes := lanes.seed lane oid } : GraphBuilder).Columns (some lane) := by
  cases hAlloc with
  | overflow =>
    refine Columns.hold_overflow ?_ (Nat.le_refl _)
    refine ⟨h.exclusive, h.refCount, ?_, h.heldFree, h.trunkFree⟩
    intro l hl
    rw [inUse_seed]
    exact h.inUse l hl
  | free _ _ hLane hFree =>
    have hNot := (h.inUse lane hLane).not.mp (by simp [hFree])
    rw [not_or, not_or, Nat.not_lt, Nat.le_zero, holders_eq_zero] at hNot
    refine ⟨h.exclusive, h.refCount, ?_, ?_, ?_⟩
    · intro l hl
      rw [inUse_seed, inUse_markUsed _ hLane, Bool.or_eq_true, decide_eq_true_eq, h.inUse l hl]
      simp [Reserved, or_assoc]
    · intro l _ he
      rw [← Option.some.inj he]
      exact hNot.1
    · intro hReserved
      refine ⟨fun he => hNot.2.1 ⟨Option.some.inj he, hReserved⟩, (h.trunkFree hReserved).2⟩

theorem Columns.released {b : GraphBuilder} {lane : Nat} (h : b.Columns (some lane)) :
    (b.releaseIfEnded lane).Columns none := by
  have hUse := inUse_releaseIfEnded b lane
  rw [releaseIfEnded_eq] at hUse ⊢
  refine ⟨h.exclusive, h.refCount, ?_, ?_, ?_⟩
  · intro l hl
    rw [hUse, h.inUse l hl]
    by_cases he : l = lane
    · subst he
      have hNone := holders_eq_zero.mpr (h.heldFree l hl rfl)
      have hTrunk : ¬(l = 0 ∧ b.Reserved) := fun hr => (h.trunkFree hr.2).1 (by rw [hr.1])
      simpa [h.refCount l hl, hNone, Reserved] using hTrunk
    · simp [he, Ne.symm he, Reserved]
  · intro l _ he
    cases he
  · intro hReserved
    exact ⟨nofun, (h.trunkFree hReserved).2⟩

theorem Columns.connect {b : GraphBuilder} {held : Option Nat} (h : b.Columns held)
    (parent : ObjectId) (row childLane : Nat) {lane : Nat} (color : UInt8) (kind : EdgeKind)
    (index : Nat) (first : Bool)
    (hJoin : held = some lane ∨ held = none ∧ ∃ edge ∈ waiting b.pending parent, edge.lane = lane) :
    (b.connect parent row childLane lane color kind index first).Columns none := by
  refine ⟨?_, ?_, ?_, ?_, ?_⟩
  · rw [pending_connect]
    refine h.exclusive.append fun hOwn item hItem hSlot => ?_
    rcases hJoin with hHeld | ⟨-, edge, hEdge, rfl⟩
    · exact absurd hSlot (h.heldFree lane hOwn hHeld item hItem)
    · exact (h.exclusive _ (mem_waiting.mp hEdge) item hItem hOwn hSlot.symm).symm
  · intro l hl
    rw [laneRefCount_connect _ _ _ _ _ _ _ _ _ hl, h.refCount l hl, pending_connect, holders_append,
      holders_singleton]
  · intro l hl
    rw [lanes_connect, h.inUse l hl, pending_connect, holders_append, holders_singleton]
    by_cases he : lane = l
    · subst he
      simp only [if_true, Nat.zero_lt_succ, true_or, iff_true]
      rcases hJoin with hHeld | ⟨-, edge, hEdge, hLane⟩
      · exact Or.inr (Or.inr hHeld)
      · exact Or.inl (holders_pos.mpr ⟨_, mem_waiting.mp hEdge, hLane⟩)
    · have hHeld : held ≠ some l := by
        rcases hJoin with rfl | ⟨rfl, -⟩
        · exact fun hs => he (Option.some.inj hs)
        · exact nofun
      simp [he, hHeld, Reserved]
  · intro l _ he
    cases he
  · intro hReserved
    refine ⟨nofun, ?_⟩
    intro item hItem
    rw [pending_connect, List.mem_append, List.mem_singleton] at hItem
    rcases hItem with hItem | rfl
    · exact (h.trunkFree hReserved).2 item hItem
    · rintro rfl
      rcases hJoin with hHeld | ⟨-, edge, hEdge, hLane⟩
      · exact (h.trunkFree hReserved).1 hHeld
      · exact (h.trunkFree hReserved).2 _ (mem_waiting.mp hEdge) hLane

theorem Columns.connectMerged {b : GraphBuilder} (h : b.Columns none) (row lane : Nat)
    (kind : EdgeKind) (parent : ObjectId) (index : Nat) :
    (b.connectMerged row lane kind parent index).Columns none := by
  have hRoute := route_routed b lane parent
  rw [GraphBuilder.connectMerged]
  generalize b.route lane parent = routed at hRoute ⊢
  cases hRoute with
  | joined edge hMem =>
    exact h.connect parent row lane _ kind index false (Or.inr ⟨rfl, edge, hMem, rfl⟩)
  | opened target lanes _ hAlloc =>
    exact (h.allocated hAlloc parent).connect parent row lane _ kind index false (Or.inl rfl)

theorem Columns.descend {b : GraphBuilder} {lane : Nat} (h : b.Columns (some lane)) (row : Nat)
    (color : UInt8) (parentOffset : Nat) (parents : List ObjectId) :
    (b.descend row lane color parentOffset parents).Columns none :=
  descend_induction (motive := fun b' => b'.Columns none) (fun _ => h.released)
    (fun parent _ => h.connect parent row lane color .firstParent parentOffset true (Or.inl rfl))
    fun _ kind parent index _ hb => hb.connectMerged row lane kind parent index

/-- The lane of a new row: nothing else that is still pending descends in it, and it is in
use besides the lanes that were. -/
structure Takes (b : GraphBuilder) (oid : ObjectId) (lane : Nat) (lanes : LaneAllocator) : Prop where
  free : lane < kMaxLanes → ∀ item ∈ discard b.pending oid, item.2.lane ≠ lane
  inUse : ∀ l < kMaxLanes, lanes.inUse l = true ↔ b.lanes.inUse l = true ∨ l = lane
  trunk : b.Reserved → (lane = 0 ↔ oid = b.options.trunkTip)

theorem isTrunkTip_eq_true {b : GraphBuilder} {oid : ObjectId} :
    b.isTrunkTip oid = true ↔ b.options.trunkTip.isNull = false ∧ oid = b.options.trunkTip := by
  simp [isTrunkTip]

theorem Columns.takes {b : GraphBuilder} (h : b.Columns none) {oid : ObjectId}
    (hNew : oid ∉ b.built.oids) {lane : Nat} {lanes : LaneAllocator}
    (hOccupied : Occupied b oid (lane, lanes)) : Takes b oid lane lanes := by
  have hReservedUse : b.Reserved → b.lanes.inUse 0 = true := fun hReserved =>
    (h.inUse 0 (by decide)).mpr (Or.inr (Or.inl ⟨rfl, hReserved⟩))
  have hOther (hTrunk : b.isTrunkTip oid = false) (hReserved : b.Reserved) :
      oid ≠ b.options.trunkTip := by
    intro he
    rw [isTrunkTip_eq_true.mpr ⟨hReserved.1, he⟩] at hTrunk
    cases hTrunk
  cases hOccupied with
  | trunk hTrunk =>
    obtain ⟨hTip, rfl⟩ := isTrunkTip_eq_true.mp hTrunk
    refine ⟨fun _ item hItem => (h.trunkFree ⟨hTip, hNew⟩).2 item (mem_discard.mp hItem).1, ?_, by simp⟩
    intro l _
    rw [inUse_seed, iff_self_or]
    rintro rfl
    exact hReservedUse ⟨hTip, hNew⟩
  | tip lane lanes hTrunk _ hAlloc =>
    cases hAlloc with
    | overflow =>
      refine ⟨fun hLane => absurd hLane (by decide), ?_, ?_⟩
      · intro l hl
        rw [inUse_seed, iff_self_or]
        intro he
        exact absurd hl (he ▸ Nat.lt_irrefl _)
      · exact fun hReserved => iff_of_false (by decide) (hOther hTrunk hReserved)
    | free _ _ hLane hFree =>
      have hNot := (h.inUse lane hLane).not.mp (by simp [hFree])
      rw [not_or, Nat.not_lt, Nat.le_zero, holders_eq_zero] at hNot
      refine ⟨fun _ item hItem => hNot.1 item (mem_discard.mp hItem).1, ?_, ?_⟩
      · intro l _
        rw [inUse_seed, inUse_markUsed _ hLane, Bool.or_eq_true, decide_eq_true_eq, eq_comm (b := l)]
      · refine fun hReserved => iff_of_false ?_ (hOther hTrunk hReserved)
        rintro rfl
        rw [hReservedUse hReserved] at hFree
        cases hFree
  | chosen hTrunk hSome =>
    obtain ⟨edge, hEdge, hLane⟩ := chooseLane_mem hSome
    rw [← hLane]
    refine ⟨fun hOwn => h.exclusive.slot_ne_of_discard hEdge hOwn, ?_, ?_⟩
    · intro l hl
      rw [iff_self_or]
      rintro rfl
      exact (h.inUse _ hl).mpr (Or.inl (holders_pos.mpr ⟨_, mem_waiting.mp hEdge, rfl⟩))
    · refine fun hReserved => iff_of_false ?_ (hOther hTrunk hReserved)
      exact (h.trunkFree hReserved).2 _ (mem_waiting.mp hEdge)

theorem reserved_arrive {b : GraphBuilder} {commit : Commit} {lane : Nat} {lanes : LaneAllocator} :
    (b.arrive commit lane lanes).Reserved ↔ b.Reserved ∧ commit.oid ≠ b.options.trunkTip := by
  rw [Reserved, options_arrive, oids_arrive, List.mem_append, List.mem_singleton, not_or,
    ← and_assoc, ← Reserved, ne_comm, Ne]

theorem Columns.arrive {b : GraphBuilder} (h : b.Columns none) {commit : Commit} {lane : Nat}
    {lanes : LaneAllocator} (hTakes : Takes b commit.oid lane lanes) :
    (b.arrive commit lane lanes).Columns (some lane) := by
  have hCount : ∀ l < kMaxLanes, (b.arrive commit lane lanes).laneRefCount l =
      holders PendingEdge.lane (discard b.pending commit.oid) l := by
    intro l hl
    rw [laneRefCount_arrive _ _ _ _ hl, h.refCount l hl,
      holders_eq_waiting_add b.pending commit.oid l, Nat.add_sub_cancel_left]
  refine ⟨?_, ?_, ?_, ?_, ?_⟩
  · rw [pending_arrive]
    exact h.exclusive.subset (discard_subset _ _)
  · intro l hl
    rw [hCount l hl, pending_arrive]
  · intro l hl
    rw [inUse_arrive _ _ _ _ hl, hCount l hl, hTakes.inUse l hl, h.inUse l hl, pending_arrive,
      reserved_arrive, holders_eq_waiting_add b.pending commit.oid l]
    by_cases hHeld : l = lane
    · simp [hHeld]
    · have hHeld' : ¬lane = l := Ne.symm hHeld
      by_cases hWait : ∃ edge ∈ waiting b.pending commit.oid, edge.lane = l
      · obtain ⟨edge, hEdge, rfl⟩ := hWait
        have hGone := holders_eq_zero.mpr (h.exclusive.slot_ne_of_discard hEdge hl)
        have hTrunk : ¬(edge.lane = 0 ∧ b.Reserved) := fun hr =>
          (h.trunkFree hr.2).2 _ (mem_waiting.mp hEdge) hr.1
        simp only [hGone, hHeld, hHeld', Option.some.injEq, Nat.lt_irrefl, or_false, false_or,
          ne_eq, not_false_eq_true, true_and]
        constructor
        · rintro ⟨-, hNone⟩
          exact absurd ⟨edge, hEdge, rfl⟩ hNone
        · rintro ⟨hZero, hReserved, -⟩
          exact absurd ⟨hZero, hReserved⟩ hTrunk
      · have hNone : (waiting b.pending commit.oid).countP (fun edge => edge.lane = l) = 0 := by
          rw [List.countP_eq_zero]
          intro edge hEdge he
          exact hWait ⟨edge, hEdge, of_decide_eq_true he⟩
        have hTrunk : l = 0 ∧ b.Reserved ↔ l = 0 ∧ b.Reserved ∧ commit.oid ≠ b.options.trunkTip := by
          refine ⟨fun hr => ⟨hr.1, hr.2, fun he => ?_⟩, fun hr => ⟨hr.1, hr.2.1⟩⟩
          exact hHeld (hr.1.trans ((hTakes.trunk hr.2).mpr he).symm)
        simp only [hWait, hNone, hHeld, hHeld', Option.some.injEq, reduceCtorEq, Nat.zero_add,
          or_false, and_false, not_false_eq_true, and_true]
        rw [hTrunk]
  · intro l hl he
    obtain rfl := Option.some.inj he
    rw [pending_arrive]
    exact hTakes.free hl
  · intro hReserved
    rw [reserved_arrive] at hReserved
    refine ⟨fun he => hReserved.2 ((hTakes.trunk hReserved.1).mp (Option.some.inj he)), ?_⟩
    rw [pending_arrive]
    exact fun item hItem => (h.trunkFree hReserved.1).2 item (mem_discard.mp hItem).1

theorem Columns.emit {b : GraphBuilder} (h : b.Columns none) {commit : Commit}
    (hNew : commit.oid ∉ b.built.oids) : (b.emit commit).Columns none := by
  obtain ⟨lane, lanes, hOccupied, hEmit⟩ := emit_eq b commit
  have h' := (h.arrive (h.takes hNew hOccupied)).descend b.built.rows.length (lanes.colorOf lane)
    b.built.parentPool.length commit.parents
  rw [hEmit]
  exact ⟨h'.exclusive, h'.refCount, h'.inUse, h'.heldFree, h'.trunkFree⟩

theorem not_mem_done {done commits : List Commit} {commit : Commit}
    (hNodup : (commits.map Commit.oid).Nodup) (hPrefix : done ++ [commit] <+: commits) :
    commit.oid ∉ done.map Commit.oid := by
  have hSub := hNodup.sublist ((hPrefix.sublist).map Commit.oid)
  rw [List.map_append] at hSub
  exact fun hMem => List.disjoint_of_nodup_append hSub hMem (by simp)

theorem Columns.markTruncated {b : GraphBuilder} {held : Option Nat} (h : b.Columns held) :
    b.markTruncated.Columns held :=
  ⟨h.exclusive, h.refCount, h.inUse, h.heldFree, h.trunkFree⟩

theorem columns_walk {options : GraphOptions} {commits : List Commit}
    (hNodup : (commits.map Commit.oid).Nodup) : (walk options commits).Columns none :=
  walk_induction (motive := fun _ b => b.Columns none) options commits (columns_new options)
    (fun _ _ h => h.markTruncated) fun _ _ _ hPrefix _ hOids _ _ h => h.emit (hOids ▸ not_mem_done hNodup hPrefix)

end GraphBuilder

end GitBranchManager
