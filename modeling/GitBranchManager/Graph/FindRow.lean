import GitBranchManager.Graph.SpanQueries

/-! # The row of a commit

A snapshot keeps its row numbers in the order of their object ids and looks a commit up by halves.
-/

namespace GitBranchManager

/-- A finalised snapshot with its rows in the order of their ids. Row numbers are `UInt32`. -/
structure SearchableSnapshot extends IndexedSnapshot where
  oidOrder : List UInt32

namespace GraphSnapshot

def oidAt (s : GraphSnapshot) (row : UInt32) : ObjectId := s.oids.getD row.toNat .null

/-- The first part of `finalizeIndices`: a stable sort, so that rows with the same id stay in order. -/
def orderOids (s : GraphSnapshot) : SearchableSnapshot :=
  { s.finalizeIndices with
    oidOrder := ((List.range s.oids.length).map UInt32.ofNat).insertionSort fun a b =>
      (s.oidAt b).less (s.oidAt a) = false }

end GraphSnapshot

namespace SearchableSnapshot

def findRow (s : SearchableSnapshot) (oid : ObjectId) : Option UInt32 :=
  let it := Bisect.lowerBound (fun i => (s.oidAt (s.oidOrder.getD i 0)).less oid) 0 s.oidOrder.length
  match s.oidOrder[it]? with
  | none => none
  | some row => if s.oidAt row = oid then some row else none

end SearchableSnapshot

namespace GraphSnapshot

theorem less_eq_false_iff (a b : ObjectId) : b.less a = false ↔ a.sortKey ≤ b.sortKey := by
  rw [← Bool.not_eq_true, ObjectId.less_iff, not_lt]

theorem findRow_eq_filter (s : SearchableSnapshot) (oid : ObjectId) :
    s.findRow oid = s.oidOrder[Bisect.lowerBound (fun i => (s.oidAt (s.oidOrder.getD i 0)).less oid) 0
      s.oidOrder.length]?.filter fun row => s.oidAt row = oid := by
  rw [SearchableSnapshot.findRow]
  split
  next hEnd => rw [hEnd, Option.filter_none]
  next row hAt =>
    rw [hAt, Option.filter_some]
    simp only [decide_eq_true_eq]

/-- What is found among the ordered rows is what a scan of the rows finds first. -/
theorem findRow_eq_find? (s : GraphSnapshot) (oid : ObjectId) :
    s.orderOids.findRow oid =
      ((List.range s.oids.length).map UInt32.ofNat).find? fun row => s.oidAt row = oid := by
  have hOrder : ∀ a b, (s.oidAt b).less (s.oidAt a) = false ↔ (s.oidAt a).sortKey ≤ (s.oidAt b).sortKey :=
    fun a b => less_eq_false_iff (s.oidAt a) (s.oidAt b)
  have hSame : ∀ row, decide (s.oidAt row = oid) = true ↔ (s.oidAt row).sortKey = oid.sortKey := fun row =>
    decide_eq_true_iff.trans ObjectId.sortKey_inj.symm
  rw [findRow_eq_filter, ← List.head?_filter, ← Bisect.filter_insertionSort_key hOrder hSame, List.head?_filter]
  apply Bisect.filter_lowerBound_key (Bisect.pairwise_insertionSort_key hOrder _) hSame
  intro i row hAt
  rw [List.getD_eq_getElem?_getD, orderOids, hAt]
  exact ObjectId.less_iff _ _

end GraphSnapshot

namespace GraphBuilder

@[simp] theorem oids_snapshot (b : GraphBuilder) : b.snapshot.oids = b.built.oids := rfl

/-- Every row has its id, and row numbers fit into 32 bits. -/
theorem length_oids_snapshot {options : GraphOptions} {b : GraphBuilder} (h : Reached options b) :
    b.snapshot.oids.length < 2 ^ 32 := by
  have hSame : b.built.oids.length = b.built.rows.length := by
    induction h with
    | new => rfl
    | @add b _ commit ih =>
      rw [add]
      split
      next => exact ih
      next => rw [oids_emit, length_rows_emit, List.length_append, ih, List.length_singleton]
    | @finish b _ ih => rw [length_rows_finish, ← ih, finish]
  obtain ⟨-, hRows, -⟩ := reached_byChildRow h
  rw [oids_snapshot, hSame]
  exact Nat.lt_of_le_of_lt hRows options.maxRows.toNat_lt

/-- Every id of a row is found, at the first row that has it, and no other id is. -/
theorem findRow_first {options : GraphOptions} {b : GraphBuilder} (h : Reached options b) (oid : ObjectId) :
    ((b.snapshot.orderOids.findRow oid).isSome = true ↔ oid ∈ b.snapshot.oids) ∧
      ∀ row, b.snapshot.orderOids.findRow oid = some row →
        b.snapshot.oids[row.toNat]? = some oid ∧ ∀ earlier < row.toNat, b.snapshot.oids[earlier]? ≠ some oid := by
  have hFits := length_oids_snapshot h
  rw [GraphSnapshot.findRow_eq_find?]
  generalize b.snapshot = s at hFits ⊢
  have hRow : ∀ i < s.oids.length, (UInt32.ofNat i).toNat = i := fun i hLess =>
    UInt32.toNat_ofNat_of_lt' (hLess.trans hFits)
  have hAt : ∀ i, (hLess : i < s.oids.length) → s.oidAt (UInt32.ofNat i) = s.oids[i] := fun i hLess => by
    rw [GraphSnapshot.oidAt, hRow i hLess, List.getD_eq_getElem?_getD, List.getElem?_eq_getElem hLess,
      Option.getD_some]
  constructor
  · rw [List.find?_isSome, List.mem_iff_getElem]
    constructor
    · rintro ⟨row, hMem, hOid⟩
      obtain ⟨i, hLess, rfl⟩ := List.mem_map.mp hMem
      have hLess := List.mem_range.mp hLess
      exact ⟨i, hLess, (hAt i hLess).symm.trans (of_decide_eq_true hOid)⟩
    · rintro ⟨i, hLess, hOid⟩
      exact ⟨_, List.mem_map_of_mem (List.mem_range.mpr hLess), decide_eq_true ((hAt i hLess).trans hOid)⟩
  · intro row hFound
    obtain ⟨hOid, i, hLess, hEq, hFirst⟩ := List.find?_eq_some_iff_getElem.mp hFound
    rw [List.length_map, List.length_range] at hLess
    rw [List.getElem_map, List.getElem_range] at hEq
    subst hEq
    rw [hRow i hLess, List.getElem?_eq_getElem hLess, ← hAt i hLess]
    refine ⟨congrArg some (of_decide_eq_true hOid), fun earlier hEarlier hSame => ?_⟩
    obtain ⟨hRange, hSame⟩ := List.getElem?_eq_some_iff.mp hSame
    have hOther := hFirst earlier hEarlier
    rw [List.getElem_map, List.getElem_range, hAt earlier hRange, hSame] at hOther
    simp at hOther

/-- An id that comes twice: git never prints one, but the builder takes it. -/
def repeatedOids : List Commit := [⟨.replicate 2, [], 0⟩, ⟨.replicate 1, [], 0⟩, ⟨.replicate 1, [], 0⟩]

theorem findRow_repeatedOids :
    ((walk {} repeatedOids).snapshot.orderOids.findRow (.replicate 1)).isSome = true := by
  rw [(findRow_first (reached_walk {} repeatedOids) (.replicate 1)).1, oids_snapshot, oids_walk,
    List.take_of_length_le (by decide)]
  decide

end GraphBuilder

end GitBranchManager
