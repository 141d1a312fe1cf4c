import GitBranchManager.Graph.OpenEdges

/-! # Streaming never rewrites what was shown

A snapshot is extended by every later one: its rows and edges keep their places, and only an
open end is filled in, with the row of a commit that came later.
-/

namespace GitBranchManager

open Library.Waiting LaneAllocator

/-- A row number is kept, or an open one becomes a row of `long` that `short` did not have. -/
def Resolved (short long : GraphSnapshot) (before after : Nat) : Prop :=
  after = before ∨ before = kRowBoundary ∧ short.rows.length ≤ after ∧ after < long.rows.length

structure Extends (short long : GraphSnapshot) : Prop where
  oids : short.oids <+: long.oids
  rows : short.rows <+: long.rows
  edges : ∀ (i : Nat) (e : Edge), short.edges[i]? = some e →
    ∃ row, long.edges[i]? = some { e with parentRow := row } ∧ Resolved short long e.parentRow row
  pool : ∀ i p : Nat, short.parentPool[i]? = some p →
    ∃ row, long.parentPool[i]? = some row ∧ Resolved short long p row

theorem Extends.refl (s : GraphSnapshot) : Extends s s where
  oids := List.prefix_refl _
  rows := List.prefix_refl _
  edges := fun _ e h => ⟨e.parentRow, h, Or.inl rfl⟩
  pool := fun _ p h => ⟨p, h, Or.inl rfl⟩

theorem Resolved.trans {a b c : GraphSnapshot} {x y z : Nat} (hab : a.rows <+: b.rows)
    (hbc : b.rows <+: c.rows) (h : Resolved a b x y) (h' : Resolved b c y z) : Resolved a c x z := by
  have hFirst := hab.length_le
  have hSecond := hbc.length_le
  rcases h with rfl | ⟨hOpen, hFrom, hTo⟩
  · exact h'.imp_right fun ⟨hOpen, hFrom, hTo⟩ => ⟨hOpen, hFirst.trans hFrom, hTo⟩
  · rcases h' with rfl | ⟨-, hFrom', hTo'⟩
    · exact Or.inr ⟨hOpen, hFrom, Nat.lt_of_lt_of_le hTo hSecond⟩
    · exact Or.inr ⟨hOpen, hFirst.trans hFrom', hTo'⟩

theorem Extends.trans {a b c : GraphSnapshot} (h : Extends a b) (h' : Extends b c) : Extends a c := by
  refine ⟨h.oids.trans h'.oids, h.rows.trans h'.rows, ?_, ?_⟩
  · intro i e hEdge
    obtain ⟨row, hEdge, hRow⟩ := h.edges i e hEdge
    obtain ⟨row', hEdge, hRow'⟩ := h'.edges i _ hEdge
    exact ⟨row', hEdge, hRow.trans h.rows h'.rows hRow'⟩
  · intro i p hSlot
    obtain ⟨row, hSlot, hRow⟩ := h.pool i p hSlot
    obtain ⟨row', hSlot, hRow'⟩ := h'.pool i row hSlot
    exact ⟨row', hSlot, hRow.trans h.rows h'.rows hRow'⟩

theorem getElem?_of_prefix {α : Type} {xs ys : List α} (h : xs <+: ys) {i : Nat} {x : α}
    (hx : xs[i]? = some x) : ys[i]? = some x := by
  obtain ⟨rest, rfl⟩ := h
  rw [List.getElem?_append_left (List.getElem?_eq_some_iff.mp hx).1, hx]

namespace GraphBuilder

theorem extends_arrive {b : GraphBuilder} (h : b.Open) (commit : Commit) (lane : Nat)
    (lanes : LaneAllocator) : Extends b.built (b.arrive commit lane lanes).built := by
  obtain ⟨row, -, hRows⟩ := rows_arrive b commit lane lanes
  obtain ⟨patched, hPool, hPatched⟩ := pool_arrive b commit lane lanes
  have hNew : b.built.rows.length < (b.arrive commit lane lanes).built.rows.length := by
    rw [hRows, List.length_append]
    exact Nat.lt_succ_self _
  constructor
  · rw [oids_arrive]
    exact List.prefix_append _ _
  · rw [hRows]
    exact List.prefix_append _ _
  · intro i e hEdge
    rw [getElem?_edges_arrive, hEdge, Option.map_some]
    split
    next hWait =>
      obtain ⟨edge, hMem, rfl⟩ := List.mem_map.mp hWait
      obtain ⟨hBoundary, -⟩ := h.edge_eq (mem_waiting.mp hMem) hEdge
      exact ⟨_, rfl, Or.inr ⟨hBoundary, Nat.le_refl _, hNew⟩⟩
    next => exact ⟨e.parentRow, rfl, Or.inl rfl⟩
  · intro i p hSlot
    have hPatch := hPatched i
    rw [hSlot, Option.map_some] at hPatch
    refine ⟨_, by rw [hPool, List.getElem?_append_left (List.getElem?_eq_some_iff.mp hPatch).1, hPatch], ?_⟩
    split
    next hWait =>
      obtain ⟨edge, hMem, rfl⟩ := List.mem_map.mp hWait
      have hOpen := h.slot _ (mem_waiting.mp hMem)
      exact Or.inr ⟨Option.some.inj (hSlot.symm.trans hOpen), Nat.le_refl _, hNew⟩
    next => exact Or.inl rfl

theorem edges_descend (b : GraphBuilder) (row lane : Nat) (color : UInt8) (offset : Nat)
    (parents : List ObjectId) :
    b.built.edges <+: (b.descend row lane color offset parents).built.edges ∧
      (b.descend row lane color offset parents).built.parentPool = b.built.parentPool ∧
      (b.descend row lane color offset parents).finished = b.finished := by
  refine descend_induction (motive := fun b' => b.built.edges <+: b'.built.edges ∧
    b'.built.parentPool = b.built.parentPool ∧ b'.finished = b.finished) ?_ ?_ ?_
  · intro _
    rw [releaseIfEnded_eq]
    exact ⟨List.prefix_refl _, rfl, rfl⟩
  · intro parent _
    exact ⟨List.prefix_append _ _, rfl, rfl⟩
  · rintro b' kind parent index _ ⟨hEdges, hPool, hFinished⟩
    exact ⟨hEdges.trans (List.prefix_append _ _), hPool, hFinished⟩

theorem extends_emit {b : GraphBuilder} (h : b.Open) (commit : Commit) :
    Extends b.built (b.emit commit).built := by
  obtain ⟨lane, lanes, -, hEmit⟩ := emit_eq b commit
  have hArrive := extends_arrive h commit lane lanes
  obtain ⟨hEdges, hPool, -⟩ := edges_descend (b.arrive commit lane lanes) b.built.rows.length lane
    (lanes.colorOf lane) b.built.parentPool.length commit.parents
  obtain ⟨-, hOids, hRows⟩ := descend_frame (b.arrive commit lane lanes) b.built.rows.length lane
    (lanes.colorOf lane) b.built.parentPool.length commit.parents
  refine hArrive.trans ?_
  rw [hEmit]
  constructor
  · exact hOids ▸ List.prefix_refl _
  · exact hRows ▸ List.prefix_refl _
  · intro i e hEdge
    exact ⟨e.parentRow, getElem?_of_prefix hEdges hEdge, Or.inl rfl⟩
  · intro i p hSlot
    exact ⟨p, hPool ▸ hSlot, Or.inl rfl⟩

/-- What a walk has built, every longer walk extends. -/
theorem extends_walk (options : GraphOptions) (shown more : List Commit) :
    Extends (walk options shown).built (walk options (shown ++ more)).built := by
  induction more using List.reverseRecOn with
  | nil =>
    rw [List.append_nil]
    exact .refl _
  | append_singleton more commit ih =>
    refine ih.trans ?_
    have hNext : walk options (shown ++ (more ++ [commit])) = (walk options (shown ++ more)).add commit := by
      rw [← List.append_assoc, walk, List.foldl_append]
      rfl
    rw [hNext, add]
    split
    · exact ⟨List.prefix_refl _, List.prefix_refl _, fun _ e h => ⟨e.parentRow, h, Or.inl rfl⟩,
        fun _ p h => ⟨p, h, Or.inl rfl⟩⟩
    · exact extends_emit (open_walk options _) commit

theorem finished_emit (b : GraphBuilder) (commit : Commit) :
    (b.emit commit).finished = b.finished := by
  obtain ⟨lane, lanes, -, hEmit⟩ := emit_eq b commit
  rw [hEmit]
  refine (edges_descend _ _ _ _ _ _).2.2.trans ?_
  rw [arrive, releaseOthers_eq, patchIncoming_eq]
  rfl

theorem finished_walk (options : GraphOptions) (commits : List Commit) :
    (walk options commits).finished = false :=
  walk_induction (motive := fun _ b => b.finished = false) options commits rfl
    (fun _ _ h => h) fun _ commit b _ _ _ _ _ h => (finished_emit b commit).trans h

/-- The snapshot of a walk that goes on, or of one that was finished. -/
def published (finished : Bool) (b : GraphBuilder) : GraphSnapshot :=
  if finished then b.finish.snapshot else b.snapshot

/-- A row has an edge that a finished walk left open. -/
def continuesOutside (s : GraphSnapshot) (row : Nat) : Bool :=
  s.complete && s.edges.any fun e => e.childRow == row && e.parentRow == kRowBoundary

def withBoundary (m : RowMeta) (boundary : Bool) : RowMeta :=
  if boundary then { m with flags := m.flags ||| RowMeta.flagBoundary } else m

theorem getElem?_markBoundary (pending : List (ObjectId × PendingEdge)) (rows : List RowMeta)
    (row : Nat) : (pending.foldl (fun rows item => markBoundary rows item.2) rows)[row]? =
      rows[row]?.map fun m => withBoundary m (pending.any fun item => item.2.childRow == row) := by
  induction pending generalizing rows with
  | nil => simp [withBoundary]
  | cons item pending ih =>
    rw [List.foldl_cons, ih, markBoundary, List.getElem?_modify, List.any_cons]
    cases rows[row]? with
    | none => rfl
    | some m =>
      rcases Decidable.eq_or_ne item.2.childRow row with hRow | hRow
      · simp only [hRow, beq_self_eq_true, Bool.true_or, if_true, Option.map_eq_map, Option.map_some,
          withBoundary]
        split
        · rw [UInt8.or_assoc, UInt8.or_self]
        · rfl
      · rw [beq_eq_false_iff_ne.mpr hRow, Bool.false_or]
        simp [hRow]

theorem continuesOutside_finish {b : GraphBuilder} (h : b.Open)
    (hFits : b.built.rows.length ≤ kRowBoundary) (row : Nat) :
    continuesOutside b.finish.snapshot row = b.pending.any fun item => item.2.childRow == row := by
  rw [continuesOutside, h.edges_finish, Bool.eq_iff_iff]
  change (true && _) = true ↔ _
  simp only [Bool.true_and, List.any_eq_true, Bool.and_eq_true, beq_iff_eq]
  constructor
  · rintro ⟨e, he, hRow, hBoundary⟩
    obtain ⟨i, hi⟩ := List.mem_iff_getElem?.mp he
    rcases h.closed i e hi with ⟨item, hItem, rfl⟩ | hClosed
    · obtain ⟨-, hChild, -⟩ := h.edge_eq hItem hi
      exact ⟨item, hItem, hChild.symm.trans hRow⟩
    · omega
  · rintro ⟨item, hItem, hRow⟩
    obtain ⟨e, hEdge, hBoundary, hChild, -⟩ := h.edge item hItem
    exact ⟨e, List.mem_of_getElem? hEdge, hChild.trans hRow, hBoundary⟩

/-- What a published snapshot of a walk shows: the rows built, the boundary flag where an edge
of a finished walk is left open, and the edges and the parent pool as they are. -/
theorem published_walk (options : GraphOptions) (commits : List Commit) (finished : Bool) :
    (published finished (walk options commits)).oids = (walk options commits).built.oids ∧
    (∀ row, (published finished (walk options commits)).rows[row]? =
      (walk options commits).built.rows[row]?.map fun m =>
        withBoundary m (continuesOutside (published finished (walk options commits)) row)) ∧
    (published finished (walk options commits)).edges = (walk options commits).built.edges ∧
    (published finished (walk options commits)).parentPool = (walk options commits).built.parentPool := by
  have hOpen := open_walk options commits
  cases finished with
  | false =>
    refine ⟨rfl, fun row => ?_, hOpen.edges_snapshot, rfl⟩
    have hNone : continuesOutside (published false (walk options commits)) row = false := by
      rw [continuesOutside]
      change ((walk options commits).finished && _) = false
      rw [finished_walk, Bool.false_and]
    rw [hNone]
    simp only [withBoundary, Bool.false_eq_true, if_false, Option.map_id']
    rfl
  | true =>
    refine ⟨rfl, fun row => ?_, hOpen.edges_finish, rfl⟩
    have hFits : (walk options commits).built.rows.length ≤ kRowBoundary := by
      have hMax := options.maxRows.toNat_lt
      rw [length_rows_walk, List.length_take, kRowBoundary]
      omega
    change ((walk options commits).pending.foldl _ _)[row]? = _
    rw [getElem?_markBoundary, ← continuesOutside_finish hOpen hFits row]
    rfl

/-- The snapshot after the first `n` commits against the one after all: its rows stay, but for
the boundary flag, and its edges and parent pool stay, but for ends filled in by later rows. -/
theorem streaming_never_rewrites (options : GraphOptions) (commits : List Commit) (n : Nat)
    (early late : Bool) :
    (published early (walk options (commits.take n))).oids <+:
      (published late (walk options commits)).oids ∧
    (∀ (row : Nat) (m : RowMeta), (published early (walk options (commits.take n))).rows[row]? = some m →
      ∃ base : RowMeta,
        m = withBoundary base
          (continuesOutside (published early (walk options (commits.take n))) row) ∧
        (published late (walk options commits)).rows[row]? =
          some (withBoundary base (continuesOutside (published late (walk options commits)) row))) ∧
    (∀ (i : Nat) (e : Edge), (published early (walk options (commits.take n))).edges[i]? = some e →
      ∃ row, (published late (walk options commits)).edges[i]? = some { e with parentRow := row } ∧
        (row = e.parentRow ∨ e.parentRow = kRowBoundary ∧ n ≤ row)) ∧
    (∀ i p : Nat, (published early (walk options (commits.take n))).parentPool[i]? = some p →
      ∃ row, (published late (walk options commits)).parentPool[i]? = some row ∧
        (row = p ∨ p = kRowBoundary ∧ n ≤ row)) := by
  obtain ⟨hOids, hRows, hEdges, hPool⟩ := published_walk options (commits.take n) early
  obtain ⟨hOids', hRows', hEdges', hPool'⟩ := published_walk options commits late
  have hExtends := extends_walk options (commits.take n) (commits.drop n)
  rw [List.take_append_drop] at hExtends
  -- A filled end is a row after the shown ones, of which there are `n` unless nothing followed.
  have hLater {before after : Nat} (h : Resolved (walk options (commits.take n)).built
      (walk options commits).built before after) : after = before ∨ before = kRowBoundary ∧ n ≤ after := by
    refine h.imp_right fun ⟨hOpen, hFrom, hTo⟩ => ⟨hOpen, ?_⟩
    rw [length_rows_walk, List.length_take, List.length_take] at hFrom
    rw [length_rows_walk, List.length_take] at hTo
    omega
  rw [hOids, hOids', hEdges, hEdges', hPool, hPool']
  refine ⟨hExtends.oids, ?_, ?_, ?_⟩
  · intro row m hm
    rw [hRows, Option.map_eq_some_iff] at hm
    obtain ⟨base, hBase, rfl⟩ := hm
    refine ⟨base, rfl, ?_⟩
    rw [hRows', getElem?_of_prefix hExtends.rows hBase, Option.map_some]
  · intro i e hEdge
    obtain ⟨row, hEdge, hRow⟩ := hExtends.edges i e hEdge
    exact ⟨row, hEdge, hLater hRow⟩
  · intro i p hSlot
    obtain ⟨row, hSlot, hRow⟩ := hExtends.pool i p hSlot
    exact ⟨row, hSlot, hLater hRow⟩

end GraphBuilder

end GitBranchManager
