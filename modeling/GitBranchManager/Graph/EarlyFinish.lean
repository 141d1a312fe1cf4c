import GitBranchManager.Graph.ExactParents

/-! # Finishing early

`finish` may be called while commits are still to come. What it writes stays: the boundary flag
of a row whose parent arrives later, and the mark that the snapshot is complete.
-/

namespace GitBranchManager

open Library.Waiting LaneAllocator

namespace GraphBuilder

/-- The builder after `k` commits, in a run that calls `finish` once `n` of them are added. -/
def earlyRun (options : GraphOptions) (commits : List Commit) (n k : Nat) : GraphBuilder :=
  if k < n then walk options (commits.take k)
  else ((commits.take k).drop n).foldl add (walk options (commits.take n)).finish

/-- Finishing after `n` commits leaves the finished snapshot as it is. -/
def SameEnd (options : GraphOptions) (commits : List Commit) (n : Nat) : Prop :=
  (earlyRun options commits n commits.length).finish.snapshot = (walk options commits).finish.snapshot

/-- No snapshot taken while commits are to come is marked complete. -/
def OpenMeanwhile (options : GraphOptions) (commits : List Commit) (n : Nat) : Prop :=
  ∀ k < commits.length, (earlyRun options commits n k).snapshot.complete = false

/-- A row misses a parent among the commits emitted. -/
def MissesParent (emitted : List Commit) (row : Nat) : Prop :=
  ∃ commit, emitted[row]? = some commit ∧ ∃ parent ∈ commit.parents, parent ∉ emitted.map Commit.oid

/-- The builder with other rows, lane count and marks, which no later commit looks at. -/
def restate (b : GraphBuilder) (rows : List RowMeta) (laneCount : Nat) (complete finished : Bool) :
    GraphBuilder :=
  { b with built := { b.built with rows, laneCount, complete }, finished }

section Restate

variable (b : GraphBuilder) (rows : List RowMeta) (laneCount : Nat) (complete finished : Bool)

theorem patchIncoming_restate (incoming : List PendingEdge) (row : Nat) :
    (b.restate rows laneCount complete finished).patchIncoming incoming row =
      (b.patchIncoming incoming row).restate rows laneCount complete finished := by
  apply List.foldl_hom fun b : GraphBuilder => b.restate rows laneCount complete finished
  exact fun _ _ => rfl

theorem releaseIfEnded_restate (lane : Nat) :
    (b.restate rows laneCount complete finished).releaseIfEnded lane =
      (b.releaseIfEnded lane).restate rows laneCount complete finished := by
  exact (apply_ite (fun b : GraphBuilder => b.restate rows laneCount complete finished)
    ((!isOverflow lane && b.laneRefCount lane == 0) = true) { b with lanes := b.lanes.release lane } b).symm

theorem releaseOthers_restate (incoming : List PendingEdge) (lane : Nat) :
    (b.restate rows laneCount complete finished).releaseOthers incoming lane =
      (b.releaseOthers incoming lane).restate rows laneCount complete finished := by
  apply List.foldl_hom fun b : GraphBuilder => b.restate rows laneCount complete finished
  intro b edge
  rw [releaseIfEnded_restate]
  exact (apply_ite (fun b : GraphBuilder => b.restate rows laneCount complete finished) _ _ _).symm

theorem descend_restate (row lane : Nat) (color : UInt8) (offset : Nat) (parents : List ObjectId) :
    (b.restate rows laneCount complete finished).descend row lane color offset parents =
      (b.descend row lane color offset parents).restate rows laneCount complete finished := by
  cases parents with
  | nil => exact releaseIfEnded_restate b rows laneCount complete finished lane
  | cons first rest =>
    rw [descend, descend]
    change List.foldl _ ((b.connectFirst row lane color offset first).restate rows laneCount complete
      finished) _ = _
    apply List.foldl_hom fun b : GraphBuilder => b.restate rows laneCount complete finished
    exact fun _ _ => rfl

theorem arrive_restate (hLength : rows.length = b.built.rows.length) (commit : Commit) (lane : Nat)
    (lanes : LaneAllocator) :
    (b.restate rows laneCount complete finished).arrive commit lane lanes =
      (b.arrive commit lane lanes).restate (rows ++ [b.rowMeta commit lane (lanes.colorOf lane)])
        laneCount complete finished := by
  change ((({ b with pending := discard b.pending commit.oid, lanes }.restate rows laneCount complete
    finished).patchIncoming (waiting b.pending commit.oid) rows.length).releaseOthers
    (waiting b.pending commit.oid) lane).pushRow commit lane (lanes.colorOf lane) = _
  rw [patchIncoming_restate, releaseOthers_restate, hLength]
  have hRows := rowMeta_arrive b commit lane lanes
  rw [arrive] at hRows ⊢
  generalize ({ b with pending := discard b.pending commit.oid, lanes }.patchIncoming
    (waiting b.pending commit.oid) b.built.rows.length).releaseOthers (waiting b.pending commit.oid)
      lane = taken at hRows ⊢
  have hRow : [taken.rowMeta commit lane (lanes.colorOf lane)] = [b.rowMeta commit lane (lanes.colorOf lane)] :=
    List.append_inj_right' hRows rfl
  rw [← hRow]
  rfl

theorem emit_of_occupy {b : GraphBuilder} {commit : Commit} {lane : Nat} {lanes : LaneAllocator}
    (h : b.occupy commit.oid (waiting b.pending commit.oid) = (lane, lanes)) :
    b.emit commit = ((b.arrive commit lane lanes).descend b.built.rows.length lane (lanes.colorOf lane)
      b.built.parentPool.length commit.parents).recordLaneCount := by
  rw [emit, h]

/-- What is shown of the rows above does not change what a commit adds. -/
theorem emit_restate (hLength : rows.length = b.built.rows.length) (commit : Commit) :
    ∃ lane color, (b.emit commit).built.rows = b.built.rows ++ [b.rowMeta commit lane color] ∧
      (b.restate rows laneCount complete finished).emit commit =
        (b.emit commit).restate (rows ++ [b.rowMeta commit lane color])
          (b.emit commit).lanes.highWater complete finished := by
  generalize hOccupy : b.occupy commit.oid (waiting b.pending commit.oid) = occupied
  obtain ⟨lane, lanes⟩ := occupied
  have hEmit := emit_of_occupy hOccupy
  have hOccupied : (b.restate rows laneCount complete finished).occupy commit.oid
      (waiting (b.restate rows laneCount complete finished).pending commit.oid) = (lane, lanes) := hOccupy
  have hRestated := emit_of_occupy hOccupied
  refine ⟨lane, lanes.colorOf lane, ?_, ?_⟩
  · rw [hEmit]
    exact (descend_frame _ _ _ _ _ _).2.2.trans (rowMeta_arrive b commit lane lanes)
  · have hCount : (b.restate rows laneCount complete finished).built.rows.length = b.built.rows.length :=
      hLength
    rw [hRestated, arrive_restate _ _ _ _ _ hLength, descend_restate, hCount, hEmit]
    rfl

theorem add_restate (hLength : rows.length = b.built.rows.length) (commit : Commit) :
    ∃ more laneCount', (b.add commit).built.rows = b.built.rows ++ more ∧
      (b.restate rows laneCount complete finished).add commit =
        (b.add commit).restate (rows ++ more) laneCount' complete finished := by
  have hFull : (b.restate rows laneCount complete finished).built.rows.length = b.built.rows.length :=
    hLength
  rw [add, add, hFull]
  change ∃ more laneCount', (if b.options.maxRows.toNat ≤ b.built.rows.length then b.markTruncated
    else b.emit commit).built.rows = _ ∧ (if b.options.maxRows.toNat ≤ b.built.rows.length then _ else _) = _
  split
  · exact ⟨[], laneCount, (List.append_nil _).symm, by rw [List.append_nil]; rfl⟩
  · obtain ⟨lane, color, hRows, hEmit⟩ := emit_restate b rows laneCount complete finished hLength commit
    exact ⟨_, _, hRows, hEmit⟩

theorem foldl_add_restate (commits : List Commit) (hLength : rows.length = b.built.rows.length) :
    ∃ more laneCount', (commits.foldl add b).built.rows = b.built.rows ++ more ∧
      commits.foldl add (b.restate rows laneCount complete finished) =
        (commits.foldl add b).restate (rows ++ more) laneCount' complete finished := by
  induction commits generalizing b rows laneCount with
  | nil => exact ⟨[], laneCount, (List.append_nil _).symm, by rw [List.append_nil]; rfl⟩
  | cons commit commits ih =>
    obtain ⟨first, laneCount', hRows, hAdd⟩ := add_restate b rows laneCount complete finished hLength commit
    obtain ⟨rest, laneCount'', hRest, hRun⟩ := ih (b.add commit) (rows ++ first) laneCount' (by
      rw [hRows, List.length_append, List.length_append, hLength])
    refine ⟨first ++ rest, laneCount'', ?_, ?_⟩
    · rw [List.foldl_cons, hRest, hRows, List.append_assoc]
    · rw [List.foldl_cons, hAdd, hRun, List.append_assoc]
      rfl

end Restate

theorem boundary_flag (count : Nat) (merge overflow : Bool) :
    (let counted := UInt8.ofNat (min count 7)
      let merged := if merge then counted ||| RowMeta.flagIsMerge else counted
      if overflow then merged ||| RowMeta.flagLaneOverflow else merged) &&& RowMeta.flagBoundary = 0 := by
  have hAll : ∀ n : Fin 8, ∀ merge overflow : Bool,
      (if overflow then (if merge then UInt8.ofNat n ||| RowMeta.flagIsMerge else UInt8.ofNat n) |||
        RowMeta.flagLaneOverflow else if merge then UInt8.ofNat n ||| RowMeta.flagIsMerge
          else UInt8.ofNat n) &&& RowMeta.flagBoundary = 0 := by decide
  exact hAll ⟨min count 7, by omega⟩ merge overflow

/-- A row carries the boundary flag only once `finish` has put it there. -/
theorem unmarked_walk (options : GraphOptions) (commits : List Commit) :
    ∀ m ∈ (walk options commits).built.rows, m.flags &&& RowMeta.flagBoundary = 0 := by
  refine walk_induction (motive := fun _ b => ∀ m ∈ b.built.rows, m.flags &&& RowMeta.flagBoundary = 0)
    options commits ?_ ?_ ?_
  · exact fun _ h => absurd h List.not_mem_nil
  · exact fun _ _ h => h
  · intro done commit b _ _ _ _ _ h m hm
    obtain ⟨lane, color, hRows, -⟩ := emit_restate b b.built.rows 0 false false rfl commit
    rw [hRows, List.mem_append, List.mem_singleton] at hm
    rcases hm with hm | rfl
    · exact h m hm
    · rw [rowMeta]
      dsimp only
      simpa only [decide_eq_true_eq] using
        boundary_flag commit.parents.length (1 < commit.parents.length) (isOverflow lane)

theorem withBoundary_eq_iff {m : RowMeta} (h : m.flags &&& RowMeta.flagBoundary = 0) (early late : Bool) :
    withBoundary (withBoundary m early) late = withBoundary m late ↔ (early = true → late = true) := by
  have hFlag : ∀ n : Fin 256, UInt8.ofFin n ||| RowMeta.flagBoundary = UInt8.ofFin n →
      UInt8.ofFin n &&& RowMeta.flagBoundary ≠ 0 := by decide +kernel
  cases early with
  | false => simp [withBoundary]
  | true =>
    cases late with
    | true => simp [withBoundary, UInt8.or_assoc]
    | false =>
      refine ⟨fun hEq => ?_, fun hNot => absurd (hNot rfl) Bool.false_ne_true⟩
      exact absurd h (hFlag m.flags.toFin (congrArg RowMeta.flags hEq))

theorem mem_parentSlots {commits : List Commit} {parent : ObjectId} {row : Nat} :
    (parent, row) ∈ parentSlots commits ↔ ∃ commit, commits[row]? = some commit ∧ parent ∈ commit.parents := by
  simp only [parentSlots, List.mem_flatMap, List.mem_map, Prod.exists, List.mem_zipIdx_iff_getElem?,
    Prod.mk.injEq]
  constructor
  · rintro ⟨commit, r, hCommit, p, hParent, rfl, rfl⟩
    exact ⟨commit, hCommit, hParent⟩
  · rintro ⟨commit, hCommit, hParent⟩
    exact ⟨commit, row, hCommit, parent, hParent, rfl, rfl⟩

/-- The rows with open edges are those that miss a parent. -/
theorem Awaiting.any_iff {done : List Commit} {b : GraphBuilder} (h : Awaiting done b) (row : Nat) :
    (b.pending.any fun item => item.2.childRow == row) = true ↔ MissesParent done row := by
  have hMap : (b.pending.any fun item => item.2.childRow == row) =
      ((b.pending.map awaited).any fun slot => slot.1.2 == row) := by
    rw [List.any_map]
    rfl
  rw [hMap, h.pending, List.any_filter, List.any_eq_true]
  constructor
  · rintro ⟨⟨⟨parent, r⟩, i⟩, hSlot, hMiss⟩
    rw [Bool.and_eq_true, decide_eq_true_eq, beq_iff_eq] at hMiss
    obtain ⟨hMiss, rfl⟩ := hMiss
    obtain ⟨commit, hCommit, hParent⟩ := mem_parentSlots.mp (List.fst_mem_of_mem_zipIdx hSlot)
    exact ⟨commit, hCommit, parent, hParent, hMiss⟩
  · rintro ⟨commit, hCommit, parent, hParent, hMiss⟩
    obtain ⟨i, hi⟩ := List.mem_iff_getElem?.mp (mem_parentSlots.mpr ⟨commit, hCommit, hParent⟩)
    refine ⟨((parent, row), i), List.mem_zipIdx_iff_getElem?.mpr hi, ?_⟩
    rw [Bool.and_eq_true, decide_eq_true_eq, beq_iff_eq]
    exact ⟨hMiss, rfl⟩

theorem finish_eq_restate {b : GraphBuilder} (h : b.Open) : b.finish = b.restate
    (b.pending.foldl (fun rows item => markBoundary rows item.2) b.built.rows) b.lanes.highWater
      true true := by
  rw [finish, h.foldl_reopen]
  rfl

theorem length_foldl_markBoundary (pending : List (ObjectId × PendingEdge)) (rows : List RowMeta) :
    (pending.foldl (fun rows item => markBoundary rows item.2) rows).length = rows.length :=
  length_eq_of_getElem?_map (getElem?_markBoundary pending rows)

/-- Rows marked early and late against rows marked late only. -/
theorem marked_eq_iff (early late : List (ObjectId × PendingEdge)) {rows : List RowMeta}
    (hUnmarked : ∀ m ∈ rows, m.flags &&& RowMeta.flagBoundary = 0) (more : List RowMeta) :
    late.foldl (fun rows item => markBoundary rows item.2)
        (early.foldl (fun rows item => markBoundary rows item.2) rows ++ more) =
      late.foldl (fun rows item => markBoundary rows item.2) (rows ++ more) ↔
    ∀ row < rows.length, (early.any fun item => item.2.childRow == row) = true →
      (late.any fun item => item.2.childRow == row) = true := by
  have hRow : ∀ row, ∀ (hRow : row < rows.length),
      (early.foldl (fun rows item => markBoundary rows item.2) rows ++ more)[row]? =
        some (withBoundary (rows.get ⟨row, hRow⟩) (early.any fun item => item.2.childRow == row)) := by
    intro row hRow
    rw [List.getElem?_append_left (by rwa [length_foldl_markBoundary]), getElem?_markBoundary,
      List.getElem?_eq_getElem hRow, Option.map_some]
    rfl
  rw [List.ext_getElem?_iff]
  constructor
  · intro h row hLt
    have hSame := h row
    rw [getElem?_markBoundary, getElem?_markBoundary, hRow row hLt, List.getElem?_append_left hLt,
      List.getElem?_eq_getElem hLt, Option.map_some, Option.map_some, Option.some.injEq] at hSame
    exact (withBoundary_eq_iff (hUnmarked _ (List.getElem_mem hLt)) _ _).mp hSame
  · intro h row
    rw [getElem?_markBoundary, getElem?_markBoundary]
    rcases Nat.lt_or_ge row rows.length with hLt | hGe
    · rw [hRow row hLt, List.getElem?_append_left hLt, List.getElem?_eq_getElem hLt, Option.map_some,
        Option.map_some, Option.some.injEq]
      exact (withBoundary_eq_iff (hUnmarked _ (List.getElem_mem hLt)) _ _).mpr (h row hLt)
    · rw [List.getElem?_append_right (by rwa [length_foldl_markBoundary]),
        List.getElem?_append_right hGe, length_foldl_markBoundary]

theorem same_end_iff (options : GraphOptions) {commits : List Commit}
    (hNodup : (commits.map Commit.oid).Nodup) (hOrder : ChildrenFirst commits) (n : Nat) :
    SameEnd options commits n ↔ ∀ row, MissesParent ((commits.take n).take options.maxRows.toNat) row →
      MissesParent (commits.take options.maxRows.toNat) row := by
  rw [SameEnd, earlyRun, List.take_length]
  split
  next hPast =>
    rw [List.take_of_length_le hPast.le]
    exact iff_of_true rfl fun _ h => h
  next =>
    have hEarly : Awaiting ((commits.take n).take options.maxRows.toNat) (walk options (commits.take n)) :=
      awaiting_walk options (hNodup.sublist ((List.take_sublist n commits).map Commit.oid))
        (hOrder.of_prefix (List.take_prefix n commits))
    have hLate := awaiting_walk options hNodup hOrder
    obtain ⟨more, laneCount, hRows, hRun⟩ := foldl_add_restate (walk options (commits.take n)) _
      (walk options (commits.take n)).lanes.highWater true true (commits.drop n)
      (length_foldl_markBoundary (walk options (commits.take n)).pending _)
    have hWhole : (commits.drop n).foldl add (walk options (commits.take n)) = walk options commits := by
      rw [walk, ← List.foldl_append, List.take_append_drop, walk]
    rw [finish_eq_restate (open_walk options (commits.take n)), hRun, hWhole]
    rw [hWhole] at hRows
    have hMarked := marked_eq_iff (walk options (commits.take n)).pending
      (walk options commits).pending (unmarked_walk options (commits.take n)) more
    rw [← hRows] at hMarked
    refine Iff.trans ⟨fun h => congrArg GraphSnapshot.rows h, fun h => ?_⟩ (hMarked.trans ?_)
    · exact congrArg (fun rows => { (walk options commits).finish.snapshot with rows }) h
    · simp only [hEarly.any_iff, hLate.any_iff, length_rows_walk]
      constructor
      · rintro h row ⟨commit, hCommit, hMiss⟩
        exact h row (List.getElem?_eq_some_iff.mp hCommit).1 ⟨commit, hCommit, hMiss⟩
      · exact fun h row _ => h row

theorem open_meanwhile_iff (options : GraphOptions) (commits : List Commit) (n : Nat) :
    OpenMeanwhile options commits n ↔ commits.length ≤ n := by
  constructor
  · intro h
    by_contra hShort
    have hSplit := h n (Nat.lt_of_not_le hShort)
    rw [earlyRun, if_neg (Nat.lt_irrefl n), List.drop_take, Nat.sub_self, List.take_zero] at hSplit
    exact Bool.noConfusion hSplit
  · intro hLong k hk
    rw [earlyRun, if_pos (Nat.lt_of_lt_of_le hk hLong)]
    exact finished_walk options (commits.take k)

/-- An early `finish` is harmless to the rows when every row that misses a parent at the split
misses one in the end, and to the completion mark when no commit follows it. -/
theorem finishing_early_iff (options : GraphOptions) (commits : List Commit)
    (hNodup : (commits.map Commit.oid).Nodup) (hOrder : ChildrenFirst commits) (n : Nat) :
    (SameEnd options commits n ↔ ∀ row, MissesParent ((commits.take n).take options.maxRows.toNat) row →
      MissesParent (commits.take options.maxRows.toNat) row) ∧
    (OpenMeanwhile options commits n ↔ commits.length ≤ n) ∧
    (SameEnd options commits n ∧ OpenMeanwhile options commits n ↔ commits.length ≤ n) := by
  have hSame := same_end_iff options hNodup hOrder n
  have hOpen := open_meanwhile_iff options commits n
  refine ⟨hSame, hOpen, fun h => hOpen.mp h.2, fun hLong => ⟨hSame.mpr ?_, hOpen.mpr hLong⟩⟩
  rw [List.take_of_length_le hLong]
  exact fun _ h => h

/-- A commit and its parent: a chunk ends between them. -/
def chunkedCommits : List Commit :=
  [{ oid := .replicate 2, parents := [.replicate 1] }, { oid := .replicate 1 }]

theorem finishing_early_iff_chunked :
    SameEnd {} chunkedCommits 1 ∧ OpenMeanwhile {} chunkedCommits 1 ↔ chunkedCommits.length ≤ 1 :=
  (finishing_early_iff {} chunkedCommits (by decide +kernel) (by decide +kernel) 1).2.2

theorem early_finish_marks_stay : (chunkedCommits.map Commit.oid).Nodup ∧
    ChildrenFirst chunkedCommits ∧ ¬SameEnd {} chunkedCommits 1 ∧ ¬OpenMeanwhile {} chunkedCommits 1 := by
  refine ⟨by decide +kernel, by decide +kernel, ?_, ?_⟩
  · rw [SameEnd]
    decide +kernel
  · intro h
    have hEarly : (earlyRun {} chunkedCommits 1 1).snapshot.complete = true := by decide +kernel
    exact Bool.noConfusion (hEarly.symm.trans (h 1 (by decide)))

end GraphBuilder

end GitBranchManager
