import GitBranchManager.Graph.StraightChains

/-! # The trunk keeps lane 0 -/

namespace GitBranchManager

open Library.Waiting LaneAllocator

def ChildrenFirst (commits : List Commit) : Prop :=
  commits.Pairwise (fun a b => a.oid ∉ b.parents) ∧ ∀ commit ∈ commits, commit.oid ∉ commit.parents

instance (commits : List Commit) : Decidable (ChildrenFirst commits) :=
  inferInstanceAs (Decidable (_ ∧ _))

theorem ChildrenFirst.of_prefix {done commits : List Commit} (h : ChildrenFirst commits)
    (hPrefix : done <+: commits) : ChildrenFirst done :=
  ⟨h.1.sublist hPrefix.sublist, fun commit hMem => h.2 commit (hPrefix.subset hMem)⟩

/-- No parent of a commit was emitted before it or is the commit itself. -/
theorem ChildrenFirst.parents_not_mem {done : List Commit} {commit : Commit}
    (h : ChildrenFirst (done ++ [commit])) :
    ∀ parent ∈ commit.parents, parent ∉ (done ++ [commit]).map Commit.oid := by
  intro parent hParent hMem
  obtain ⟨earlier, hEarlier, rfl⟩ := List.mem_map.mp hMem
  rw [List.mem_append, List.mem_singleton] at hEarlier
  rcases hEarlier with hEarlier | rfl
  · exact (List.pairwise_append.mp h.1).2.2 earlier hEarlier commit (List.mem_singleton_self _) hParent
  · exact h.2 earlier (by simp) hParent

/-- The ids reached from `tip` by first parents of listed commits. -/
inductive FirstParentChain (commits : List Commit) (tip : ObjectId) : ObjectId → Prop
  | tip : FirstParentChain commits tip tip
  | parent {commit : Commit} {oid : ObjectId} (hMem : commit ∈ commits)
      (hChain : FirstParentChain commits tip commit.oid)
      (hFirst : commit.parents.head? = some oid) : FirstParentChain commits tip oid

theorem FirstParentChain.eq_or_child {commits : List Commit} {tip oid : ObjectId}
    (h : FirstParentChain commits tip oid) : oid = tip ∨ ∃ child ∈ commits,
      FirstParentChain commits tip child.oid ∧ child.parents.head? = some oid := by
  cases h with
  | tip => exact Or.inl rfl
  | parent hMem hChain hFirst => exact Or.inr ⟨_, hMem, hChain, hFirst⟩

theorem ChildrenFirst.mem_done {done rest commits : List Commit} {commit child : Commit}
    (h : ChildrenFirst commits) (hSplit : done ++ [commit] ++ rest = commits)
    (hMem : child ∈ commits) (hParent : commit.oid ∈ child.parents) : child ∈ done := by
  subst hSplit
  rw [List.append_assoc, List.mem_append, List.singleton_append, List.mem_cons] at hMem
  rcases hMem with hMem | rfl | hMem
  · exact hMem
  · exact absurd hParent (h.2 child (by simp))
  · have hPair := (List.pairwise_append.mp (List.append_assoc done [commit] rest ▸ h.1)).2.1
    exact absurd hParent (List.rel_of_pairwise_cons hPair hMem)

namespace GraphBuilder

/-- The emitted commits of a chain have lane 0, and each of their first parents is emitted or
awaited in lane 0. -/
structure TrunkHeld (chain : ObjectId → Prop) (done : List Commit) (b : GraphBuilder) : Prop where
  row : ∀ (i : Nat) (commit : Commit) (m : RowMeta), done[i]? = some commit →
    b.built.rows[i]? = some m → chain commit.oid → m.lane = 0
  next : ∀ commit ∈ done, chain commit.oid → ∀ parent, commit.parents.head? = some parent →
    parent ∈ done.map Commit.oid ∨
      ∃ edge ∈ waiting b.pending parent, edge.firstParent = true ∧ edge.lane = 0

theorem Occupied.lane_eq_zero {b : GraphBuilder} {oid : ObjectId} {lane : Nat} {lanes : LaneAllocator}
    (h : Occupied b oid (lane, lanes)) (hLead : b.isTrunkTip oid = true ∨
      ∃ edge ∈ waiting b.pending oid, edge.firstParent = true ∧ edge.lane = 0) : lane = 0 := by
  cases h with
  | trunk => rfl
  | tip _ _ hTrunk hNone =>
    rcases hLead with hTip | ⟨edge, hMem, -⟩
    · rw [hTip] at hTrunk
      cases hTrunk
    · rw [hNone] at hMem
      cases hMem
  | chosen hTrunk =>
    rcases hLead with hTip | ⟨edge, hMem, hFirst, hZero⟩
    · rw [hTip] at hTrunk
      cases hTrunk
    · exact Nat.le_zero.mp (hZero ▸ chooseLane_le hMem hFirst)

theorem TrunkHeld.emit {chain : ObjectId → Prop} {done : List Commit} {b : GraphBuilder}
    {commit : Commit} (h : TrunkHeld chain done b) (hRows : b.built.rows.length = done.length)
    (hLead : chain commit.oid → b.isTrunkTip commit.oid = true ∨
      ∃ edge ∈ waiting b.pending commit.oid, edge.firstParent = true ∧ edge.lane = 0) :
    TrunkHeld chain (done ++ [commit]) (b.emit commit) := by
  obtain ⟨lane, lanes, hOccupied, hEmit⟩ := emit_eq b commit
  obtain ⟨row, hRow, hRows'⟩ := rows_arrive b commit lane lanes
  have hLane (hChain : chain commit.oid) : lane = 0 := hOccupied.lane_eq_zero (hLead hChain)
  have hBuilt : (b.emit commit).built.rows = b.built.rows ++ [row] := by
    rw [hEmit]
    exact (descend_frame _ _ _ _ _ _).2.2.trans hRows'
  constructor
  · intro i c m hDone hm hChain
    rw [hBuilt] at hm
    rcases Nat.lt_or_ge i done.length with hi | hi
    · rw [List.getElem?_append_left hi] at hDone
      rw [List.getElem?_append_left (hRows ▸ hi)] at hm
      exact h.row i c m hDone hm hChain
    · obtain rfl : i = done.length := by
        have := (List.getElem?_eq_some_iff.mp hDone).1
        rw [List.length_append, List.length_singleton] at this
        omega
      rw [List.getElem?_concat_length] at hDone
      rw [← hRows, List.getElem?_concat_length] at hm
      obtain rfl := Option.some.inj hDone
      obtain rfl := Option.some.inj hm
      rw [hRow, hLane hChain]
  · intro c hc hChain parent hParent
    rw [List.map_append, List.mem_append, hEmit]
    rcases List.mem_append.mp hc with hc | hc
    · rcases h.next c hc hChain parent hParent with hDone | ⟨edge, hMem, hEdge⟩
      · exact Or.inl (Or.inl hDone)
      · by_cases he : parent = commit.oid
        · exact Or.inl (Or.inr (by simp [he]))
        · refine Or.inr ⟨edge, mem_waiting.mpr (mem_pending_descend ?_ _ _ _ _ _), hEdge⟩
          rw [pending_arrive, mem_discard]
          exact ⟨mem_waiting.mp hMem, he⟩
    · obtain rfl := List.mem_singleton.mp hc
      obtain ⟨edge, hMem, hFirst, hEdge⟩ := mem_pending_descend_first (b.arrive c lane lanes)
        b.built.rows.length lane (lanes.colorOf lane) b.built.parentPool.length hParent
      exact Or.inr ⟨edge, mem_waiting.mpr hMem, hFirst, hEdge.trans (hLane hChain)⟩

theorem trunkHeld_walk {options : GraphOptions} {commits : List Commit}
    (hNodup : (commits.map Commit.oid).Nodup) (hOrder : ChildrenFirst commits)
    (hTip : options.trunkTip.isNull = false) :
    TrunkHeld (FirstParentChain commits options.trunkTip)
      (commits.take options.maxRows.toNat) (walk options commits) := by
  apply walk_induction (motive := TrunkHeld (FirstParentChain commits options.trunkTip))
  · exact ⟨fun _ _ _ h => (nomatch h), fun _ h => (nomatch h)⟩
  · exact fun done b h => ⟨h.row, h.next⟩
  · intro done commit b hPrefix hOptions _ hRows _ h
    obtain ⟨rest, hSplit⟩ := hPrefix
    apply h.emit hRows
    intro hChain
    rcases hChain.eq_or_child with hEq | ⟨child, hMem, hChain, hFirst⟩
    · exact Or.inl (by simp [isTrunkTip, hOptions, hTip, hEq])
    · have hDone : child ∈ done :=
        hOrder.mem_done hSplit hMem (List.mem_of_mem_head? hFirst)
      refine Or.inr ((h.next child hDone hChain _ hFirst).resolve_left ?_)
      intro hSeen
      rw [← hSplit, List.map_append, List.map_append] at hNodup
      exact List.disjoint_of_nodup_append (List.Nodup.of_append_left hNodup) hSeen (by simp)

/-- Every resolved first-parent edge stays in its child's lane and ends at a row no further
right; and the chain of a trunk tip that is emitted has lane 0. -/
theorem firstParent_never_moves_right (options : GraphOptions) (commits : List Commit) :
    (∀ e ∈ (walk options commits).snapshot.edges, e.kind = .firstParent → e.parentRow ≠ kRowBoundary →
      ∃ child parent, (walk options commits).snapshot.rows[e.childRow]? = some child ∧
        (walk options commits).snapshot.rows[e.parentRow]? = some parent ∧
        parent.lane ≤ e.lane ∧ e.lane = e.childLane ∧ e.childLane = child.lane) ∧
    ((commits.map Commit.oid).Nodup → ChildrenFirst commits → options.trunkTip.isNull = false →
      options.trunkTip ∈ (commits.take options.maxRows.toNat).map Commit.oid →
      (∃ (row : Nat) (m : RowMeta), (walk options commits).snapshot.oids[row]? = some options.trunkTip ∧
        (walk options commits).snapshot.rows[row]? = some m ∧ m.lane = 0) ∧
      ∀ (row : Nat) (oid : ObjectId) (m : RowMeta), (walk options commits).snapshot.oids[row]? = some oid →
        (walk options commits).snapshot.rows[row]? = some m →
        FirstParentChain commits options.trunkTip oid → m.lane = 0) := by
  constructor
  · intro e he hKind hParent
    have hStraight := straight_walk options commits
    have hBuilt := mem_edges_snapshot he hParent
    obtain ⟨child, hChild, hChildLane⟩ := hStraight.child e hBuilt
    obtain ⟨parent, hRow, hLe⟩ := hStraight.parent e hBuilt hKind hParent
    exact ⟨child, parent, hChild, hRow, hLe, hStraight.stays e hBuilt hKind, hChildLane.symm⟩
  · intro hNodup hOrder hTip hEmitted
    have hHeld := trunkHeld_walk hNodup hOrder hTip
    have hChain : ∀ (row : Nat) (oid : ObjectId) (m : RowMeta), (walk options commits).snapshot.oids[row]? = some oid →
        (walk options commits).snapshot.rows[row]? = some m →
        FirstParentChain commits options.trunkTip oid → m.lane = 0 := by
      intro row oid m hOid hRow hChain
      rw [snapshot, oids_walk, List.getElem?_map, Option.map_eq_some_iff] at hOid
      obtain ⟨commit, hCommit, rfl⟩ := hOid
      exact hHeld.row row commit m hCommit hRow hChain
    refine ⟨?_, hChain⟩
    rw [← oids_walk] at hEmitted
    obtain ⟨row, hRow⟩ := List.mem_iff_getElem?.mp hEmitted
    have hLt : row < (walk options commits).built.rows.length := by
      have hLt := (List.getElem?_eq_some_iff.mp hRow).1
      rw [oids_walk, List.length_map] at hLt
      rwa [length_rows_walk]
    exact ⟨row, _, hRow, List.getElem?_eq_getElem hLt,
      hChain row _ _ hRow (List.getElem?_eq_getElem hLt) .tip⟩

/-- A newer branch is listed above the trunk tip; both grew from one commit. -/
def forkedCommits : List Commit :=
  [{ oid := .replicate 3, parents := [.replicate 1] },
    { oid := .replicate 2, parents := [.replicate 1] }, { oid := .replicate 1 }]

def forkedOptions : GraphOptions := { trunkTip := .replicate 2 }

theorem firstParent_never_moves_right_forked :
    (walk forkedOptions forkedCommits).snapshot.rows[2]?.map RowMeta.lane = some 0 := by
  have hBase : FirstParentChain forkedCommits forkedOptions.trunkTip (.replicate 1) :=
    .parent (List.mem_cons_of_mem _ List.mem_cons_self) .tip (by decide)
  obtain ⟨m, hRow⟩ : ∃ m, (walk forkedOptions forkedCommits).snapshot.rows[2]? = some m :=
    Option.isSome_iff_exists.mp (by decide +kernel)
  have h := ((firstParent_never_moves_right forkedOptions forkedCommits).2 (by decide) (by decide)
    (by decide) (by decide)).2 2 (.replicate 1) m (by decide +kernel) hRow hBase
  rw [hRow, Option.map_some, h]

end GraphBuilder

end GitBranchManager
