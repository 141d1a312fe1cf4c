import Mathlib.Algebra.Order.BigOperators.Group.List
import Mathlib.Algebra.Order.Group.Nat
import Mathlib.Data.List.Induction
import Mathlib.Data.List.Pairwise
import Mathlib.Logic.Relation
import Mathlib.Algebra.GroupWithZero.Nat

/-! # Segments of synced columns

A sweep over all columns in the order of their positions cuts them into segments. An item begins a new
segment only when it starts after everything in the current one has ended.
-/

namespace GitBranchManager.SyncScroll

/-- The positions that an item covers, both ends included. -/
structure SyncSpan (P : Type*) where
  lo : P
  hi : P
  deriving DecidableEq, Repr

/-- A column of the sweep: the items before its next one, with the segments they got, and the others. -/
structure SyncColumn (P : Type*) where
  passed : List (Option (SyncSpan P) × Nat) := []
  ahead : List (Option (SyncSpan P))

structure SyncSweep (P : Type*) where
  columns : List (SyncColumn P)
  segment : Nat := 0
  reach : Option P := none

variable {P : Type*}

namespace SyncColumn

/-- Items with no position go where their column already is. -/
def skipBlanks (passed : List (Option (SyncSpan P) × Nat)) : List (Option (SyncSpan P)) → SyncColumn P
  | none :: ahead => skipBlanks (passed ++ [(none, (passed.getLast?.map Prod.snd).getD 0)]) ahead
  | ahead => { passed, ahead }

def skip (column : SyncColumn P) : SyncColumn P := skipBlanks column.passed column.ahead

/-- The segment that a blank takes after these items. -/
def lastSegment (passed : List (Option (SyncSpan P) × Nat)) : Nat := (passed.getLast?.map Prod.snd).getD 0

/-- All blanks at the front are passed, with the segment of the item before them. -/
theorem skipBlanks_spec (passed : List (Option (SyncSpan P) × Nat)) (ahead : List (Option (SyncSpan P))) :
    ∃ n, ahead = List.replicate n none ++ (skipBlanks passed ahead).ahead ∧
      (skipBlanks passed ahead).passed = passed ++ List.replicate n (none, lastSegment passed) ∧
      (skipBlanks passed ahead).ahead.head? ≠ some none := by
  induction ahead generalizing passed with
  | nil => exact ⟨0, rfl, (List.append_nil _).symm, nofun⟩
  | cons item ahead ih =>
    cases item with
    | some span => exact ⟨0, rfl, (List.append_nil _).symm, nofun⟩
    | none =>
      obtain ⟨n, hAhead, hPassed, hHead⟩ := ih (passed ++ [(none, lastSegment passed)])
      have hLast : lastSegment (passed ++ [(none, lastSegment passed)]) = lastSegment passed := by
        simp only [lastSegment, List.getLast?_concat, Option.map_some, Option.getD_some]
      refine ⟨n + 1, congrArg (none :: ·) hAhead, ?_, hHead⟩
      rw [hLast] at hPassed
      exact hPassed.trans (List.append_assoc _ _ _)

end SyncColumn

namespace SyncSweep

variable (compare : P → P → Ordering)

/-- One column of the loop that looks for the least start. -/
def better (best : Option (Nat × SyncSpan P)) (column : SyncColumn P × Nat) : Option (Nat × SyncSpan P) :=
  match column.1.ahead, best with
  | some span :: _, none => some (column.2, span)
  | some span :: _, some (c, first) =>
    if compare span.lo first.lo = .lt then some (column.2, span) else some (c, first)
  | _, best => best

def best (columns : List (SyncColumn P)) : Option (Nat × SyncSpan P) := columns.zipIdx.foldl (better compare) none

/-- The segment and the reach once a span is taken. -/
def reachWith (s : SyncSweep P) (span : SyncSpan P) : Nat × P :=
  match s.reach with
  | none => (s.segment + 1, span.hi)
  | some reach =>
    if compare span.lo reach = .gt then (s.segment + 1, span.hi)
    else if compare span.hi reach = .gt then (s.segment, span.hi)
    else (s.segment, reach)

def place (s : SyncSweep P) (c : Nat) (span : SyncSpan P) : SyncSweep P :=
  let (segment, reach) := s.reachWith compare span
  { columns := s.columns.modify c fun column =>
      { passed := column.passed ++ [(some span, segment)], ahead := column.ahead.tail }
    segment
    reach := some reach }

def skip (s : SyncSweep P) : SyncSweep P := { s with columns := s.columns.map SyncColumn.skip }

/-- The items that are still to come. -/
def left (s : SyncSweep P) : Nat := (s.columns.map fun column => column.ahead.length).sum

/-! ## One round -/

variable {compare}

theorem better_cases {best found : Option (Nat × SyncSpan P)} {column : SyncColumn P × Nat}
    (h : better compare best column = found) :
    found = best ∨ ∃ span ahead, column.1.ahead = some span :: ahead ∧ found = some (column.2, span) := by
  obtain ⟨⟨passed, ahead⟩, c⟩ := column
  match ahead, best, h with
  | some span :: ahead, none, h => exact .inr ⟨span, ahead, rfl, h.symm⟩
  | some span :: ahead, some (c, first), h =>
    dsimp only [better] at h
    split at h
    · exact .inr ⟨span, ahead, rfl, h.symm⟩
    · exact .inl h.symm
  | [], _, h | none :: _, _, h => exact .inl h.symm

/-- What is found is the next item of its column. -/
theorem getElem?_of_best {columns : List (SyncColumn P)} {c : Nat} {span : SyncSpan P}
    (h : best compare columns = some (c, span)) :
    ∃ column ahead, columns[c]? = some column ∧ column.ahead = some span :: ahead := by
  have hFold (items : List (SyncColumn P × Nat)) (hItems : ∀ item ∈ items, columns[item.2]? = some item.1) :
      ∀ found, items.foldl (better compare) none = some found →
        ∃ column ahead, columns[found.1]? = some column ∧ column.ahead = some found.2 :: ahead := by
    induction items using List.reverseRecOn with
    | nil => exact fun _ hFound => nomatch hFound
    | append_singleton items item ih =>
      intro found hFound
      rw [List.foldl_append, List.foldl_cons, List.foldl_nil] at hFound
      rcases better_cases hFound with hOld | ⟨span, ahead, hAhead, hNew⟩
      · exact ih (fun item hMem => hItems item (List.mem_append_left _ hMem)) found hOld.symm
      · obtain rfl := Option.some.inj hNew
        exact ⟨item.1, ahead, hItems item (List.mem_append_right _ (List.mem_singleton.mpr rfl)), hAhead⟩
  exact hFold columns.zipIdx (fun item hMem => List.mem_zipIdx_iff_getElem?.mp hMem) _ h

theorem left_place_lt {s : SyncSweep P} {c : Nat} {span : SyncSpan P} (h : best compare s.columns = some (c, span)) :
    (s.place compare c span).left < s.left := by
  obtain ⟨column, ahead, hColumn, hAhead⟩ := getElem?_of_best h
  have hPos : 0 < column.ahead.length := by simp only [hAhead, List.length_cons, Nat.zero_lt_succ]
  suffices hSum : ∀ (columns : List (SyncColumn P)) (c : Nat) (f : SyncColumn P → SyncColumn P),
      columns[c]? = some column → (f column).ahead = column.ahead.tail →
      ((columns.modify c f).map fun column => column.ahead.length).sum
        < (columns.map fun column => column.ahead.length).sum from
    hSum s.columns c _ hColumn rfl
  intro columns
  induction columns with
  | nil => exact fun c f hColumn => nomatch hColumn
  | cons first columns ih =>
    intro c f hColumn hTail
    cases c with
    | zero =>
      obtain rfl := Option.some.inj hColumn
      simp only [List.modify_zero_cons, List.map_cons, List.sum_cons, hTail, List.length_tail]
      omega
    | succ c =>
      have hRest := ih c f hColumn hTail
      simp only [List.modify_succ_cons, List.map_cons, List.sum_cons]
      omega

theorem left_skip_le (s : SyncSweep P) : s.skip.left ≤ s.left := by
  rw [left, left, skip, List.map_map]
  refine List.sum_le_sum fun column _ => ?_
  obtain ⟨n, hAhead, -⟩ := SyncColumn.skipBlanks_spec column.passed column.ahead
  have hLength := congrArg List.length hAhead
  rw [List.length_append, List.length_replicate] at hLength
  change (SyncColumn.skipBlanks column.passed column.ahead).ahead.length ≤ column.ahead.length
  omega

variable (compare)

/-- The rounds, until every column is at its end. -/
def sweep (s : SyncSweep P) : SyncSweep P :=
  match _h : best compare s.skip.columns with
  | none => s.skip
  | some (c, span) => sweep (s.skip.place compare c span)
  termination_by s.left
  decreasing_by exact (left_place_lt ‹_›).trans_le (left_skip_le s)

variable {compare}

/-! ## What the sweep has done -/

/-- A span that has got a segment. -/
def Placed (s : SyncSweep P) (span : SyncSpan P) (k : Nat) : Prop :=
  ∃ column ∈ s.columns, (some span, k) ∈ column.passed

/-- A span that is still to come. -/
def Ahead (s : SyncSweep P) (span : SyncSpan P) : Prop := ∃ column ∈ s.columns, some span ∈ column.ahead

theorem mem_columns_skip {s : SyncSweep P} {column : SyncColumn P} :
    column ∈ s.skip.columns ↔ ∃ old ∈ s.columns, old.skip = column :=
  List.mem_map

theorem placed_skip {s : SyncSweep P} {span : SyncSpan P} {k : Nat} : s.skip.Placed span k ↔ s.Placed span k := by
  have hMem (column : SyncColumn P) : (some span, k) ∈ column.skip.passed ↔ (some span, k) ∈ column.passed := by
    obtain ⟨n, -, hPassed, -⟩ := SyncColumn.skipBlanks_spec column.passed column.ahead
    rw [SyncColumn.skip, hPassed, List.mem_append, or_iff_left]
    exact fun h => nomatch (Prod.mk.inj (List.eq_of_mem_replicate h)).1
  simp only [Placed, mem_columns_skip, exists_exists_and_eq_and, hMem]

theorem ahead_skip {s : SyncSweep P} {span : SyncSpan P} : s.skip.Ahead span ↔ s.Ahead span := by
  have hMem (column : SyncColumn P) : some span ∈ column.skip.ahead ↔ some span ∈ column.ahead := by
    obtain ⟨n, hAhead, -, -⟩ := SyncColumn.skipBlanks_spec column.passed column.ahead
    conv_rhs => rw [hAhead, List.mem_append]
    rw [or_iff_right, SyncColumn.skip]
    exact fun h => nomatch List.eq_of_mem_replicate h
  simp only [Ahead, mem_columns_skip, exists_exists_and_eq_and, hMem]

/-- The column whose item was taken, after it. -/
def advance (column : SyncColumn P) (span : SyncSpan P) (k : Nat) : SyncColumn P :=
  { passed := column.passed ++ [(some span, k)], ahead := column.ahead.tail }

theorem place_eq (s : SyncSweep P) (c : Nat) (span : SyncSpan P) :
    s.place compare c span =
      { columns := s.columns.modify c fun column => advance column span (s.reachWith compare span).1
        segment := (s.reachWith compare span).1
        reach := some (s.reachWith compare span).2 } :=
  rfl

theorem mem_columns_place {s : SyncSweep P} {c : Nat} {span : SyncSpan P} {column new : SyncColumn P}
    (hColumn : s.columns[c]? = some column) (h : new ∈ (s.place compare c span).columns) :
    new ∈ s.columns ∨ new = advance column span (s.reachWith compare span).1 := by
  obtain ⟨i, hNew⟩ := List.mem_iff_getElem?.mp h
  rw [place_eq] at hNew
  by_cases hi : c = i
  · obtain rfl := hi
    rw [List.getElem?_modify_eq, hColumn] at hNew
    exact .inr (Option.some.inj hNew).symm
  · rw [List.getElem?_modify_ne _ _ hi] at hNew
    exact .inl (List.mem_of_getElem? hNew)

theorem placed_place {s : SyncSweep P} {c : Nat} {span a : SyncSpan P} {k : Nat} {column : SyncColumn P}
    (hColumn : s.columns[c]? = some column) :
    (s.place compare c span).Placed a k ↔ s.Placed a k ∨ a = span ∧ k = (s.reachWith compare span).1 := by
  have hAdvance {old : SyncColumn P} : (some a, k) ∈ (advance old span (s.reachWith compare span).1).passed ↔
      (some a, k) ∈ old.passed ∨ a = span ∧ k = (s.reachWith compare span).1 := by
    simp only [advance, List.mem_append, List.mem_singleton, Prod.mk.injEq, Option.some.injEq]
  constructor
  · rintro ⟨new, hNew, hMem⟩
    obtain hOld | rfl := mem_columns_place hColumn hNew
    · exact .inl ⟨new, hOld, hMem⟩
    · exact (hAdvance.mp hMem).imp_left fun hMem => ⟨column, List.mem_of_getElem? hColumn, hMem⟩
  · have hAt : advance column span (s.reachWith compare span).1 ∈ (s.place compare c span).columns := by
      refine List.mem_of_getElem? (i := c) ?_
      rw [place_eq, List.getElem?_modify_eq, hColumn]
      rfl
    rintro (⟨old, hOld, hMem⟩ | hNew)
    · obtain ⟨i, hi⟩ := List.mem_iff_getElem?.mp hOld
      by_cases hci : c = i
      · obtain rfl := hci
        obtain rfl := Option.some.inj (hi.symm.trans hColumn)
        exact ⟨_, hAt, hAdvance.mpr (.inl hMem)⟩
      · refine ⟨old, List.mem_of_getElem? (i := i) ?_, hMem⟩
        rw [place_eq, List.getElem?_modify_ne _ _ hci, hi]
    · exact ⟨_, hAt, hAdvance.mpr (.inr hNew)⟩

theorem ahead_of_place {s : SyncSweep P} {c : Nat} {span a : SyncSpan P} {column : SyncColumn P}
    (hColumn : s.columns[c]? = some column) (h : (s.place compare c span).Ahead a) : s.Ahead a := by
  obtain ⟨new, hNew, hMem⟩ := h
  obtain hOld | rfl := mem_columns_place hColumn hNew
  · exact ⟨new, hOld, hMem⟩
  · exact ⟨column, List.mem_of_getElem? hColumn, List.mem_of_mem_tail hMem⟩

/-! ## The next span starts first -/

section Least

variable [Std.TransCmp compare]

variable (compare) in
theorem better_le_left (best : Nat × SyncSpan P) (column : SyncColumn P × Nat) :
    ∃ found, better compare (some best) column = some found ∧ (compare found.2.lo best.2.lo).isLE := by
  obtain ⟨⟨passed, ahead⟩, c⟩ := column
  match ahead with
  | [] | none :: _ => exact ⟨best, rfl, Std.ReflCmp.isLE_rfl⟩
  | some span :: _ =>
    dsimp only [better]
    split
    next hLess => exact ⟨(c, span), rfl, Ordering.isLE_of_eq_lt hLess⟩
    next => exact ⟨best, rfl, Std.ReflCmp.isLE_rfl⟩

theorem better_le_right (best : Option (Nat × SyncSpan P)) {column : SyncColumn P × Nat} {span : SyncSpan P}
    {ahead : List (Option (SyncSpan P))} (h : column.1.ahead = some span :: ahead) :
    ∃ found, better compare best column = some found ∧ (compare found.2.lo span.lo).isLE := by
  obtain ⟨⟨passed, _⟩, c⟩ := column
  obtain rfl := h
  match best with
  | none => exact ⟨(c, span), rfl, Std.ReflCmp.isLE_rfl⟩
  | some (i, first) =>
    dsimp only [better]
    split
    next => exact ⟨(c, span), rfl, Std.ReflCmp.isLE_rfl⟩
    next hNot => exact ⟨(i, first), rfl, Std.OrientedCmp.isGE_iff_isLE.mp (Ordering.isGE_iff_ne_lt.mpr hNot)⟩

variable (compare) in
theorem best_le {columns : List (SyncColumn P)} {column : SyncColumn P} (hColumn : column ∈ columns)
    {span : SyncSpan P} {ahead : List (Option (SyncSpan P))} (hAhead : column.ahead = some span :: ahead) :
    ∃ found, best compare columns = some found ∧ (compare found.2.lo span.lo).isLE := by
  have hFold (items : List (SyncColumn P × Nat)) : ∀ item ∈ items, item.1.ahead = some span :: ahead →
      ∃ found, items.foldl (better compare) none = some found ∧ (compare found.2.lo span.lo).isLE := by
    induction items using List.reverseRecOn with
    | nil => exact fun _ hMem => nomatch hMem
    | append_singleton items last ih =>
      intro item hMem hItem
      rw [List.foldl_append, List.foldl_cons, List.foldl_nil]
      obtain hMem | hMem := List.mem_append.mp hMem
      · obtain ⟨first, hFirst, hLe⟩ := ih item hMem hItem
        obtain ⟨found, hFound, hLeFirst⟩ := better_le_left compare first last
        exact ⟨found, hFirst ▸ hFound, Std.TransCmp.isLE_trans hLeFirst hLe⟩
      · obtain rfl := List.mem_singleton.mp hMem
        exact better_le_right _ hItem
  obtain ⟨c, hc⟩ := List.mem_iff_getElem?.mp hColumn
  exact hFold columns.zipIdx (column, c) (List.mem_zipIdx_iff_getElem?.mpr hc) hAhead

end Least

/-! ## The invariant of the sweep -/

/-- Starts do not go back down a column. -/
def Ascending (compare : P → P → Ordering) (items : List (Option (SyncSpan P))) : Prop :=
  (items.filterMap id).Pairwise fun a b => (compare a.lo b.lo).isLE

/-- What holds of each column on its own. -/
structure Laid (compare : P → P → Ordering) (columns : List (List (Option (SyncSpan P)))) (s : SyncSweep P) :
    Prop where
  items : s.columns.map (fun column => column.passed.map Prod.fst ++ column.ahead) = columns
  ordered : ∀ column ∈ s.columns, (column.passed.map Prod.snd).Pairwise (· ≤ ·)
  below : ∀ column ∈ s.columns, ∀ item ∈ column.passed, item.2 ≤ s.segment
  ascending : ∀ column ∈ s.columns, Ascending compare column.ahead

variable (compare) in
theorem reachWith_cases [Std.TransCmp compare] (s : SyncSweep P) (span : SyncSpan P) :
    (s.reachWith compare span = (s.segment + 1, span.hi) ∧
        ∀ reach, s.reach = some reach → compare reach span.lo = .lt) ∨
      ∃ old reach, s.reach = some old ∧ s.reachWith compare span = (s.segment, reach) ∧
        (compare span.lo old).isLE ∧ (compare old reach).isLE ∧ (compare span.hi reach).isLE ∧
        (reach = old ∨ reach = span.hi) := by
  cases hReach : s.reach with
  | none =>
    refine .inl ⟨?_, nofun⟩
    rw [reachWith, hReach]
  | some old =>
    by_cases hStart : compare span.lo old = .gt
    · refine .inl ⟨?_, fun reach hOld => ?_⟩
      · rw [reachWith, hReach]
        exact if_pos hStart
      · obtain rfl := Option.some.inj hOld
        exact Std.OrientedCmp.lt_of_gt hStart
    · refine .inr ⟨old, if compare span.hi old = .gt then span.hi else old, rfl, ?_, ?_, ?_⟩
      · rw [reachWith, hReach]
        dsimp only
        rw [if_neg hStart]
        split <;> rfl
      · exact Ordering.ne_gt_iff_isLE.mp hStart
      · split
        next hEnd =>
          exact ⟨Ordering.isLE_of_eq_lt (Std.OrientedCmp.lt_of_gt hEnd), Std.ReflCmp.isLE_rfl, .inr rfl⟩
        next hEnd => exact ⟨Std.ReflCmp.isLE_rfl, Ordering.ne_gt_iff_isLE.mp hEnd, .inl rfl⟩

theorem Laid.skip {columns : List (List (Option (SyncSpan P)))} {s : SyncSweep P} (h : s.Laid compare columns) :
    s.skip.Laid compare columns where
  items := by
    rw [← h.items, SyncSweep.skip, List.map_map]
    refine List.map_congr_left fun column _ => ?_
    obtain ⟨n, hAhead, hPassed, -⟩ := SyncColumn.skipBlanks_spec column.passed column.ahead
    conv_rhs => rw [hAhead]
    rw [Function.comp_apply, SyncColumn.skip, hPassed, List.map_append, List.map_replicate, List.append_assoc]
  ordered := by
    intro new hNew
    obtain ⟨column, hColumn, rfl⟩ := mem_columns_skip.mp hNew
    obtain ⟨n, -, hPassed, -⟩ := SyncColumn.skipBlanks_spec column.passed column.ahead
    rw [SyncColumn.skip, hPassed, List.map_append, List.map_replicate]
    refine List.pairwise_append.mpr ⟨h.ordered column hColumn, List.pairwise_replicate.mpr (.inr le_rfl), ?_⟩
    intro k hk last hLast
    obtain rfl := List.eq_of_mem_replicate hLast
    have hEnd := (h.ordered column hColumn).rel_getLast hk
    rw [SyncColumn.lastSegment, ← List.getLast?_map, List.getLast?_eq_some_getLast (List.ne_nil_of_mem hk)]
    exact hEnd
  below := by
    intro new hNew item hItem
    obtain ⟨column, hColumn, rfl⟩ := mem_columns_skip.mp hNew
    obtain ⟨n, -, hPassed, -⟩ := SyncColumn.skipBlanks_spec column.passed column.ahead
    rw [SyncColumn.skip, hPassed] at hItem
    obtain hOld | hBlank := List.mem_append.mp hItem
    · exact h.below column hColumn item hOld
    · obtain rfl := List.eq_of_mem_replicate hBlank
      change SyncColumn.lastSegment column.passed ≤ s.segment
      rw [SyncColumn.lastSegment]
      cases hLast : column.passed.getLast? with
      | none => exact Nat.zero_le _
      | some last => exact h.below column hColumn last (List.mem_of_getLast? hLast)
  ascending := by
    intro new hNew
    obtain ⟨column, hColumn, rfl⟩ := mem_columns_skip.mp hNew
    obtain ⟨n, hAhead, -, -⟩ := SyncColumn.skipBlanks_spec column.passed column.ahead
    have hSorted := h.ascending column hColumn
    rw [Ascending, hAhead, List.filterMap_append] at hSorted
    exact (List.pairwise_append.mp hSorted).2.1

theorem Laid.place [Std.TransCmp compare] {columns : List (List (Option (SyncSpan P)))} {s : SyncSweep P}
    (h : s.Laid compare columns) {c : Nat} {span : SyncSpan P} {column : SyncColumn P}
    {ahead : List (Option (SyncSpan P))} (hColumn : s.columns[c]? = some column)
    (hAhead : column.ahead = some span :: ahead) : (s.place compare c span).Laid compare columns := by
  have hMem := List.mem_of_getElem? hColumn
  have hSegment : s.segment ≤ (s.reachWith compare span).1 := by
    obtain ⟨hWith, -⟩ | ⟨old, reach, -, hWith, -⟩ := reachWith_cases compare s span
    · exact hWith ▸ Nat.le_succ _
    · exact hWith ▸ le_rfl
  refine { items := ?_, ordered := ?_, below := ?_, ascending := ?_ }
  · rw [← h.items]
    refine List.ext_getElem? fun i => ?_
    rw [List.getElem?_map, List.getElem?_map, place_eq]
    by_cases hi : c = i
    · obtain rfl := hi
      rw [List.getElem?_modify_eq, hColumn]
      simp only [Option.map_eq_map, Option.map_some, advance, hAhead, List.map_append, List.map_cons, List.map_nil,
        List.tail_cons, List.append_assoc, List.cons_append, List.nil_append]
    · rw [List.getElem?_modify_ne _ _ hi]
  · intro new hNew
    obtain hOld | rfl := mem_columns_place hColumn hNew
    · exact h.ordered new hOld
    · rw [advance, List.map_append]
      refine List.pairwise_append.mpr ⟨h.ordered column hMem, List.pairwise_singleton _ _, ?_⟩
      intro k hk last hLast
      obtain rfl := List.mem_singleton.mp hLast
      obtain ⟨item, hItem, rfl⟩ := List.mem_map.mp hk
      exact (h.below column hMem item hItem).trans hSegment
  · intro new hNew item hItem
    obtain hOld | rfl := mem_columns_place hColumn hNew
    · exact (h.below new hOld item hItem).trans hSegment
    · obtain hItem | hItem := List.mem_append.mp hItem
      · exact (h.below column hMem item hItem).trans hSegment
      · exact (congrArg Prod.snd (List.mem_singleton.mp hItem)).le
  · intro new hNew
    obtain hOld | rfl := mem_columns_place hColumn hNew
    · exact h.ascending new hOld
    · have hSorted := h.ascending column hMem
      rw [Ascending, hAhead, List.filterMap_cons] at hSorted
      rw [Ascending, advance, hAhead, List.tail_cons]
      exact (List.pairwise_cons.mp hSorted).2

/-! ## The cut so far -/

/-- Some column has an item at this span. -/
def Positioned (columns : List (List (Option (SyncSpan P)))) (a : SyncSpan P) : Prop :=
  ∃ column ∈ columns, some a ∈ column

/-- Two positioned spans with a point in common. -/
def Touching (compare : P → P → Ordering) (columns : List (List (Option (SyncSpan P)))) (a b : SyncSpan P) : Prop :=
  Positioned columns a ∧ Positioned columns b ∧ (compare a.lo b.hi).isLE ∧ (compare b.lo a.hi).isLE

/-- What holds between the columns. -/
structure Cut (compare : P → P → Ordering) (columns : List (List (Option (SyncSpan P)))) (s : SyncSweep P) :
    Prop where
  pos : ∀ {a k}, s.Placed a k → 1 ≤ k
  used : ∀ {k}, 1 ≤ k → k ≤ s.segment → ∃ a, s.Placed a k
  starts : ∀ {a k b}, s.Placed a k → s.Ahead b → (compare a.lo b.lo).isLE
  apart : ∀ {a j b k}, s.Placed a j → s.Placed b k → j < k → compare a.hi b.lo = .lt
  behind : ∀ {a j b}, s.Placed a j → s.Ahead b → j < s.segment → compare a.hi b.lo = .lt
  reached : ∀ {a}, s.Placed a s.segment → ∃ reach, s.reach = some reach ∧ (compare a.hi reach).isLE
  attained : ∀ {reach}, s.reach = some reach → ∃ a, s.Placed a s.segment ∧ a.hi = reach
  linked : (∀ a, Positioned columns a → (compare a.lo a.hi).isLE) →
    ∀ {a b k}, s.Placed a k → s.Placed b k → Relation.EqvGen (Touching compare columns) a b

theorem Cut.skip {columns : List (List (Option (SyncSpan P)))} {s : SyncSweep P} (h : s.Cut compare columns) :
    s.skip.Cut compare columns where
  pos hA := h.pos (placed_skip.mp hA)
  used hPos hLe := (h.used hPos hLe).imp fun _ => placed_skip.mpr
  starts hA hB := h.starts (placed_skip.mp hA) (ahead_skip.mp hB)
  apart hA hB := h.apart (placed_skip.mp hA) (placed_skip.mp hB)
  behind hA hB := h.behind (placed_skip.mp hA) (ahead_skip.mp hB)
  reached hA := h.reached (placed_skip.mp hA)
  attained hReach := (h.attained hReach).imp fun _ => And.imp_left placed_skip.mpr
  linked hSpans _ _ _ hA hB := h.linked hSpans (placed_skip.mp hA) (placed_skip.mp hB)

theorem Laid.positioned {columns : List (List (Option (SyncSpan P)))} {s : SyncSweep P} (h : s.Laid compare columns)
    {a : SyncSpan P} (hA : (∃ k, s.Placed a k) ∨ s.Ahead a) : Positioned columns a := by
  rw [← h.items]
  obtain ⟨k, column, hColumn, hMem⟩ | ⟨column, hColumn, hMem⟩ := hA
  · exact ⟨_, List.mem_map_of_mem hColumn, List.mem_append_left _ (List.mem_map_of_mem (f := Prod.fst) hMem)⟩
  · exact ⟨_, List.mem_map_of_mem hColumn, List.mem_append_right _ hMem⟩

theorem Laid.below_placed {columns : List (List (Option (SyncSpan P)))} {s : SyncSweep P} (h : s.Laid compare columns)
    {a : SyncSpan P} {k : Nat} (hA : s.Placed a k) : k ≤ s.segment := by
  obtain ⟨column, hColumn, hMem⟩ := hA
  exact h.below column hColumn _ hMem

/-- When no column stands before a blank, the span that is taken starts before all others. -/
theorem Laid.least [Std.TransCmp compare] {columns : List (List (Option (SyncSpan P)))} {s : SyncSweep P}
    (h : s.Laid compare columns) (hSkipped : ∀ column ∈ s.columns, column.ahead.head? ≠ some none) {c : Nat}
    {span : SyncSpan P} (hBest : best compare s.columns = some (c, span)) {b : SyncSpan P} (hB : s.Ahead b) :
    (compare span.lo b.lo).isLE := by
  obtain ⟨column, hColumn, hMem⟩ := hB
  have hSorted := h.ascending column hColumn
  have hHead := hSkipped column hColumn
  match hAhead : column.ahead with
  | [] => rw [hAhead] at hMem; exact nomatch hMem
  | none :: _ => exact absurd (congrArg List.head? hAhead) hHead
  | some first :: ahead =>
    obtain ⟨found, hFound, hLe⟩ := best_le compare hColumn hAhead
    obtain rfl := Option.some.inj (hFound.symm.trans hBest)
    rw [hAhead] at hMem hSorted
    obtain hEq | hMem := List.mem_cons.mp hMem
    · obtain rfl := Option.some.inj hEq
      exact hLe
    · rw [Ascending, List.filterMap_cons] at hSorted
      exact Std.TransCmp.isLE_trans hLe
        ((List.pairwise_cons.mp hSorted).1 b (List.mem_filterMap.mpr ⟨some b, hMem, rfl⟩))

section Place

variable [Std.TransCmp compare] {columns : List (List (Option (SyncSpan P)))} {s : SyncSweep P} {c : Nat}
  {span : SyncSpan P} {column : SyncColumn P}

/-- A span past the reach starts after all that has been placed. -/
theorem Cut.ended (h : s.Cut compare columns) (hLaid : s.Laid compare columns) (hSpan : s.Ahead span)
    (hPast : ∀ reach, s.reach = some reach → compare reach span.lo = .lt) {a : SyncSpan P} {k : Nat}
    (hA : s.Placed a k) : compare a.hi span.lo = .lt := by
  obtain hk | rfl := (hLaid.below_placed hA).lt_or_eq
  · exact h.behind hA hSpan hk
  · obtain ⟨reach, hReach, hLe⟩ := h.reached hA
    exact Std.TransCmp.lt_of_isLE_of_lt hLe (hPast reach hReach)

omit [Std.TransCmp compare] in
theorem Cut.starts_place (h : s.Cut compare columns) (hColumn : s.columns[c]? = some column)
    (hLeast : ∀ b, s.Ahead b → (compare span.lo b.lo).isLE) {a b : SyncSpan P} {k : Nat}
    (hA : (s.place compare c span).Placed a k) (hB : (s.place compare c span).Ahead b) :
    (compare a.lo b.lo).isLE := by
  have hAhead : s.Ahead b := ahead_of_place hColumn hB
  obtain hOld | ⟨rfl, -⟩ := (placed_place hColumn).mp hA
  · exact h.starts hOld hAhead
  · exact hLeast b hAhead

theorem Cut.place_open (h : s.Cut compare columns) (hLaid : s.Laid compare columns)
    (hColumn : s.columns[c]? = some column) (hSpan : s.Ahead span)
    (hLeast : ∀ b, s.Ahead b → (compare span.lo b.lo).isLE)
    (hWith : s.reachWith compare span = (s.segment + 1, span.hi))
    (hPast : ∀ reach, s.reach = some reach → compare reach span.lo = .lt) :
    (s.place compare c span).Cut compare columns := by
  have hSegment : (s.place compare c span).segment = s.segment + 1 := by rw [place_eq, hWith]
  have hReach : (s.place compare c span).reach = some span.hi := by rw [place_eq, hWith]
  have hPlaced {a : SyncSpan P} {k : Nat} :
      (s.place compare c span).Placed a k ↔ s.Placed a k ∨ a = span ∧ k = s.segment + 1 := by
    rw [placed_place hColumn, hWith]
  have hAhead {b : SyncSpan P} : (s.place compare c span).Ahead b → s.Ahead b := ahead_of_place hColumn
  have hOld {a : SyncSpan P} (hA : s.Placed a (s.segment + 1)) : False :=
    absurd (hLaid.below_placed hA) (Nat.not_succ_le_self _)
  refine { pos := ?_, used := ?_, starts := ?_, apart := ?_, behind := ?_, reached := ?_, attained := ?_, linked := ?_ }
  · intro a k hA
    obtain hA | ⟨-, rfl⟩ := hPlaced.mp hA
    · exact h.pos hA
    · exact Nat.succ_pos _
  · intro k hPos hk
    obtain rfl | hk := (hk.trans_eq hSegment).eq_or_lt
    · exact ⟨span, hPlaced.mpr (.inr ⟨rfl, rfl⟩)⟩
    · exact (h.used hPos (Nat.le_of_lt_succ hk)).imp fun _ hA => hPlaced.mpr (.inl hA)
  · exact h.starts_place hColumn hLeast
  · intro a j b k hA hB hjk
    obtain hB | ⟨rfl, rfl⟩ := hPlaced.mp hB
    · obtain hA | ⟨-, rfl⟩ := hPlaced.mp hA
      · exact h.apart hA hB hjk
      · have hk := hLaid.below_placed hB
        omega
    · obtain hA | ⟨-, rfl⟩ := hPlaced.mp hA
      · exact h.ended hLaid hSpan hPast hA
      · exact absurd hjk (lt_irrefl _)
  · intro a j b hA hB hj
    rw [hSegment] at hj
    obtain hA | ⟨-, rfl⟩ := hPlaced.mp hA
    · exact Std.TransCmp.lt_of_lt_of_isLE (h.ended hLaid hSpan hPast hA) (hLeast b (hAhead hB))
    · exact absurd hj (lt_irrefl _)
  · intro a hA
    rw [hSegment] at hA
    obtain hA | ⟨rfl, -⟩ := hPlaced.mp hA
    · exact (hOld hA).elim
    · exact ⟨a.hi, hReach, Std.ReflCmp.isLE_rfl⟩
  · intro reach hEq
    rw [hSegment]
    exact ⟨span, hPlaced.mpr (.inr ⟨rfl, rfl⟩), Option.some.inj (hReach.symm.trans hEq)⟩
  · intro hSpans a b k hA hB
    obtain hA | ⟨rfl, rfl⟩ := hPlaced.mp hA
    · obtain hB | ⟨-, rfl⟩ := hPlaced.mp hB
      · exact h.linked hSpans hA hB
      · exact (hOld hA).elim
    · obtain hB | ⟨rfl, -⟩ := hPlaced.mp hB
      · exact (hOld hB).elim
      · exact .refl _

theorem Cut.place_join (h : s.Cut compare columns) (hLaid : s.Laid compare columns)
    (hColumn : s.columns[c]? = some column) (hSpan : s.Ahead span)
    (hLeast : ∀ b, s.Ahead b → (compare span.lo b.lo).isLE) {old reach : P} (hOld : s.reach = some old)
    (hWith : s.reachWith compare span = (s.segment, reach)) (hStart : (compare span.lo old).isLE)
    (hLe : (compare old reach).isLE) (hEnd : (compare span.hi reach).isLE) (hOne : reach = old ∨ reach = span.hi) :
    (s.place compare c span).Cut compare columns := by
  have hSegment : (s.place compare c span).segment = s.segment := by rw [place_eq, hWith]
  have hReach : (s.place compare c span).reach = some reach := by rw [place_eq, hWith]
  have hPlaced {a : SyncSpan P} {k : Nat} :
      (s.place compare c span).Placed a k ↔ s.Placed a k ∨ a = span ∧ k = s.segment := by
    rw [placed_place hColumn, hWith]
  have hAhead {b : SyncSpan P} : (s.place compare c span).Ahead b → s.Ahead b := ahead_of_place hColumn
  obtain ⟨top, hTop, rfl⟩ := h.attained hOld
  refine { pos := ?_, used := ?_, starts := ?_, apart := ?_, behind := ?_, reached := ?_, attained := ?_, linked := ?_ }
  · intro a k hA
    obtain hA | ⟨-, rfl⟩ := hPlaced.mp hA
    · exact h.pos hA
    · exact h.pos hTop
  · intro k hPos hk
    exact (h.used hPos (hk.trans_eq hSegment)).imp fun _ hA => hPlaced.mpr (.inl hA)
  · exact h.starts_place hColumn hLeast
  · intro a j b k hA hB hjk
    obtain hB | ⟨rfl, rfl⟩ := hPlaced.mp hB
    · obtain hA | ⟨-, rfl⟩ := hPlaced.mp hA
      · exact h.apart hA hB hjk
      · exact absurd (hLaid.below_placed hB) (Nat.not_le_of_gt hjk)
    · obtain hA | ⟨-, rfl⟩ := hPlaced.mp hA
      · exact h.behind hA hSpan hjk
      · exact absurd hjk (lt_irrefl _)
  · intro a j b hA hB hj
    rw [hSegment] at hj
    obtain hA | ⟨-, rfl⟩ := hPlaced.mp hA
    · exact h.behind hA (hAhead hB) hj
    · exact absurd hj (lt_irrefl _)
  · intro a hA
    rw [hSegment] at hA
    refine ⟨reach, hReach, ?_⟩
    obtain hA | ⟨rfl, -⟩ := hPlaced.mp hA
    · obtain ⟨other, hOther, hALe⟩ := h.reached hA
      obtain rfl := Option.some.inj (hOther.symm.trans hOld)
      exact Std.TransCmp.isLE_trans hALe hLe
    · exact hEnd
  · intro end' hEq
    obtain rfl := Option.some.inj (hReach.symm.trans hEq)
    rw [hSegment]
    obtain rfl | rfl := hOne
    · exact ⟨top, hPlaced.mpr (.inl hTop), rfl⟩
    · exact ⟨span, hPlaced.mpr (.inr ⟨rfl, rfl⟩), rfl⟩
  · intro hSpans
    have hTopSpan : Touching compare columns top span :=
      have hPosition := hLaid.positioned (.inr hSpan)
      ⟨hLaid.positioned (.inl ⟨_, hTop⟩), hPosition,
        Std.TransCmp.isLE_trans (h.starts hTop hSpan) (hSpans span hPosition), hStart⟩
    -- every span of the segment hangs on the one that its reach comes from
    have hLinked {a : SyncSpan P} {k : Nat} (hA : s.Placed a k) (hk : k = s.segment) :
        Relation.EqvGen (Touching compare columns) a span :=
      .trans _ _ _ (h.linked hSpans (hk ▸ hA) hTop) (.rel _ _ hTopSpan)
    intro a b k hA hB
    obtain hOldA | ⟨rfl, hk⟩ := hPlaced.mp hA
    · obtain hOldB | ⟨rfl, hk⟩ := hPlaced.mp hB
      · exact h.linked hSpans hOldA hOldB
      · exact hLinked hOldA hk
    · obtain hOldB | ⟨rfl, -⟩ := hPlaced.mp hB
      · exact .symm _ _ (hLinked hOldB hk)
      · exact .refl _

end Place

/-! ## Every round keeps the invariant -/

/-- The invariant of the sweep. -/
structure Swept (compare : P → P → Ordering) (columns : List (List (Option (SyncSpan P)))) (s : SyncSweep P) :
    Prop where
  laid : s.Laid compare columns
  cut : s.Cut compare columns

variable {columns : List (List (Option (SyncSpan P)))}

theorem Swept.skip {s : SyncSweep P} (h : s.Swept compare columns) : s.skip.Swept compare columns :=
  ⟨h.laid.skip, h.cut.skip⟩

theorem head?_ahead_skip {s : SyncSweep P} : ∀ column ∈ s.skip.columns, column.ahead.head? ≠ some none := by
  intro column hColumn
  obtain ⟨old, -, rfl⟩ := mem_columns_skip.mp hColumn
  obtain ⟨n, -, -, hHead⟩ := SyncColumn.skipBlanks_spec old.passed old.ahead
  exact hHead

theorem Swept.place [Std.TransCmp compare] {s : SyncSweep P} (h : s.Swept compare columns)
    (hSkipped : ∀ column ∈ s.columns, column.ahead.head? ≠ some none) {c : Nat} {span : SyncSpan P}
    (hBest : best compare s.columns = some (c, span)) : (s.place compare c span).Swept compare columns := by
  obtain ⟨column, ahead, hColumn, hAhead⟩ := getElem?_of_best hBest
  have hSpan : s.Ahead span := ⟨column, List.mem_of_getElem? hColumn, hAhead ▸ List.mem_cons_self⟩
  have hLeast (b : SyncSpan P) (hB : s.Ahead b) := h.laid.least hSkipped hBest hB
  refine ⟨h.laid.place hColumn hAhead, ?_⟩
  obtain ⟨hWith, hPast⟩ | ⟨old, reach, hOld, hWith, hStart, hLe, hEnd, hOne⟩ :=
    reachWith_cases compare s span
  · exact h.cut.place_open h.laid hColumn hSpan hLeast hWith hPast
  · exact h.cut.place_join h.laid hColumn hSpan hLeast hOld hWith hStart hLe hEnd hOne

theorem Swept.sweep [Std.TransCmp compare] {s : SyncSweep P} (h : s.Swept compare columns) :
    (s.sweep compare).Swept compare columns := by
  induction s using SyncSweep.sweep.induct compare with
  | case1 s hNone => rw [SyncSweep.sweep, hNone]; exact h.skip
  | case2 s c span hBest ih => rw [SyncSweep.sweep, hBest]; exact ih (h.skip.place head?_ahead_skip hBest)

/-- At the end of the sweep nothing is left in any column. -/
theorem ahead_sweep [Std.TransCmp compare] (s : SyncSweep P) :
    ∀ column ∈ (s.sweep compare).columns, column.ahead = [] := by
  induction s using SyncSweep.sweep.induct compare with
  | case2 s c span hBest ih => rw [SyncSweep.sweep, hBest]; exact ih
  | case1 s hNone =>
    rw [SyncSweep.sweep, hNone]
    intro column hColumn
    match hAhead : column.ahead with
    | [] => rfl
    | none :: _ => exact absurd (congrArg List.head? hAhead) (head?_ahead_skip column hColumn)
    | some span :: _ =>
      obtain ⟨found, hFound, -⟩ := best_le compare hColumn hAhead
      exact nomatch hFound.symm.trans hNone

/-- Before the first round. -/
def start (columns : List (List (Option (SyncSpan P)))) : SyncSweep P :=
  { columns := columns.map fun ahead => { ahead } }

theorem not_placed_start {a : SyncSpan P} {k : Nat} : ¬(start columns).Placed a k := by
  rintro ⟨column, hColumn, hMem⟩
  obtain ⟨ahead, -, rfl⟩ := List.mem_map.mp hColumn
  exact nomatch hMem

theorem swept_start (hColumns : ∀ column ∈ columns, Ascending compare column) :
    (start columns).Swept compare columns := by
  have hPassed {column : SyncColumn P} (hColumn : column ∈ (start columns).columns) :
      column.passed = [] ∧ column.ahead ∈ columns := by
    obtain ⟨ahead, hAhead, rfl⟩ := List.mem_map.mp hColumn
    exact ⟨rfl, hAhead⟩
  constructor
  · refine { items := ?_, ordered := ?_, below := ?_, ascending := ?_ }
    · rw [start, List.map_map]
      exact List.map_id columns
    · exact fun column hColumn => by rw [(hPassed hColumn).1]; exact .nil
    · exact fun column hColumn => by rw [(hPassed hColumn).1]; exact nofun
    · exact fun column hColumn => hColumns _ (hPassed hColumn).2
  · exact {
      pos := fun hA => (not_placed_start hA).elim
      used := fun hPos hk => absurd (hPos.trans hk) (Nat.not_succ_le_zero 0)
      starts := fun hA => (not_placed_start hA).elim
      apart := fun hA => (not_placed_start hA).elim
      behind := fun hA => (not_placed_start hA).elim
      reached := fun hA => (not_placed_start hA).elim
      attained := nofun
      linked := fun _ _ _ _ hA => (not_placed_start hA).elim }

end SyncSweep

/-- The segment of each item of each column, and how many segments there are. -/
structure SyncSegments where
  segmentOf : List (List Nat)
  count : Nat
  deriving DecidableEq, Repr

def partitionSyncSegments (columns : List (List (Option (SyncSpan P)))) (compare : P → P → Ordering) : SyncSegments :=
  let s := (SyncSweep.start columns).sweep compare
  { segmentOf := s.columns.map fun column => column.passed.map Prod.snd, count := s.segment + 1 }

/-- Some item at this span is in this segment. -/
def SyncSegments.Holds (segments : SyncSegments) (columns : List (List (Option (SyncSpan P)))) (a : SyncSpan P)
    (k : Nat) : Prop :=
  ∃ c i : Nat, (columns[c]?.bind fun column => column[i]?) = some (some a) ∧
    (segments.segmentOf[c]?.bind fun row => row[i]?) = some k

open SyncSweep

section Partition

variable {columns : List (List (Option (SyncSpan P)))} {compare : P → P → Ordering} [Std.TransCmp compare]

theorem swept_partition (hColumns : ∀ column ∈ columns, Ascending compare column) :
    ((start columns).sweep compare).Swept compare columns :=
  (swept_start hColumns).sweep

/-- When the sweep is over, each column is what it has passed. -/
theorem map_passed_partition (hColumns : ∀ column ∈ columns, Ascending compare column) :
    ((start columns).sweep compare).columns.map (fun column => column.passed.map Prod.fst) = columns := by
  conv_rhs => rw [← (swept_partition hColumns).laid.items]
  refine List.map_congr_left fun column hColumn => ?_
  rw [ahead_sweep (start columns) column hColumn, List.append_nil]

theorem holds_partition (hColumns : ∀ column ∈ columns, Ascending compare column) {a : SyncSpan P} {k : Nat} :
    (partitionSyncSegments columns compare).Holds columns a k ↔ ((start columns).sweep compare).Placed a k := by
  have hAt (c i : Nat) : (columns[c]?.bind fun column => column[i]?) =
      (((start columns).sweep compare).columns[c]?.bind fun column => column.passed[i]?).map Prod.fst := by
    conv_lhs => rw [← map_passed_partition hColumns]
    rw [List.getElem?_map]
    cases ((start columns).sweep compare).columns[c]? with
    | none => rfl
    | some column => exact List.getElem?_map
  have hSegment (c i : Nat) : ((partitionSyncSegments columns compare).segmentOf[c]?.bind fun row => row[i]?) =
      (((start columns).sweep compare).columns[c]?.bind fun column => column.passed[i]?).map Prod.snd := by
    rw [partitionSyncSegments, List.getElem?_map]
    cases ((start columns).sweep compare).columns[c]? with
    | none => rfl
    | some column => exact List.getElem?_map
  constructor
  · rintro ⟨c, i, hItem, hRow⟩
    rw [hAt, Option.map_eq_some_iff] at hItem
    obtain ⟨⟨_, j⟩, hFound, rfl⟩ := hItem
    rw [hSegment, hFound] at hRow
    obtain rfl := Option.some.inj hRow
    obtain ⟨column, hColumn, hMem⟩ := Option.bind_eq_some_iff.mp hFound
    exact ⟨column, List.mem_of_getElem? hColumn, List.mem_of_getElem? hMem⟩
  · rintro ⟨column, hColumn, hMem⟩
    obtain ⟨c, hc⟩ := List.mem_iff_getElem?.mp hColumn
    obtain ⟨i, hi⟩ := List.mem_iff_getElem?.mp hMem
    have hFound : (((start columns).sweep compare).columns[c]?.bind fun column => column.passed[i]?) =
        some (some a, k) :=
      Option.bind_eq_some_iff.mpr ⟨column, hc, hi⟩
    exact ⟨c, i, (hAt c i).trans (congrArg _ hFound), (hSegment c i).trans (congrArg _ hFound)⟩

end Partition

theorem partition_is_finest_cut (columns : List (List (Option (SyncSpan P)))) (compare : P → P → Ordering)
    [Std.TransCmp compare] (hColumns : ∀ column ∈ columns, Ascending compare column) :
    let segments := partitionSyncSegments columns compare
    segments.segmentOf.map List.length = columns.map List.length ∧
      (∀ row ∈ segments.segmentOf, row.Pairwise (· ≤ ·) ∧ ∀ k ∈ row, k < segments.count) ∧
      (∀ k, 1 ≤ k ∧ k < segments.count ↔ ∃ a, segments.Holds columns a k) ∧
      (∀ a b j k, segments.Holds columns a j → segments.Holds columns b k →
        (compare a.lo b.hi).isLE → (compare b.lo a.hi).isLE → j = k) ∧
      (∀ a b j k, segments.Holds columns a j → segments.Holds columns b k → j < k → compare a.hi b.lo = .lt) ∧
      ((∀ a, Positioned columns a → (compare a.lo a.hi).isLE) →
        ∀ a b k, segments.Holds columns a k → segments.Holds columns b k →
          Relation.EqvGen (Touching compare columns) a b) := by
  have hSwept := swept_partition hColumns
  have hHolds {a : SyncSpan P} {k : Nat} := holds_partition hColumns (a := a) (k := k)
  refine ⟨?_, ?_, ?_, ?_, ?_, ?_⟩
  · conv_rhs => rw [← map_passed_partition hColumns]
    rw [partitionSyncSegments, List.map_map, List.map_map]
    refine List.map_congr_left fun column _ => ?_
    exact (List.length_map _).trans (List.length_map _).symm
  · intro row hRow
    obtain ⟨column, hColumn, rfl⟩ := List.mem_map.mp hRow
    refine ⟨hSwept.laid.ordered column hColumn, fun k hk => ?_⟩
    obtain ⟨item, hItem, rfl⟩ := List.mem_map.mp hk
    exact Nat.lt_succ_of_le (hSwept.laid.below column hColumn item hItem)
  · intro k
    constructor
    · rintro ⟨hPos, hk⟩
      exact (hSwept.cut.used hPos (Nat.le_of_lt_succ hk)).imp fun _ => hHolds.mpr
    · rintro ⟨a, hA⟩
      exact ⟨hSwept.cut.pos (hHolds.mp hA), Nat.lt_succ_of_le (hSwept.laid.below_placed (hHolds.mp hA))⟩
  · intro a b j k hA hB hAB hBA
    obtain hLess | hEq | hMore := lt_trichotomy j k
    · exact absurd (hSwept.cut.apart (hHolds.mp hA) (hHolds.mp hB) hLess) (Std.OrientedCmp.not_lt_of_isLE hBA)
    · exact hEq
    · exact absurd (hSwept.cut.apart (hHolds.mp hB) (hHolds.mp hA) hMore) (Std.OrientedCmp.not_lt_of_isLE hAB)
  · exact fun a b j k hA hB => hSwept.cut.apart (hHolds.mp hA) (hHolds.mp hB)
  · exact fun hSpans a b k hA hB => hSwept.cut.linked hSpans (hHolds.mp hA) (hHolds.mp hB)

/-- Two columns where a card of each overlaps the other's, and a head with no position. -/
def twoFiles : List (List (Option (SyncSpan Nat))) :=
  [[none, some ⟨0, 2⟩, some ⟨5, 6⟩], [some ⟨2, 3⟩, none, some ⟨8, 9⟩]]

example : partitionSyncSegments twoFiles compare = { segmentOf := [[0, 1, 2], [1, 1, 3]], count := 4 } := by
  decide +kernel

theorem partition_is_finest_cut_two_files :
    (∀ column ∈ twoFiles, Ascending compare column) ∧
      (∀ k, 1 ≤ k ∧ k < (partitionSyncSegments twoFiles compare).count ↔
        ∃ a, (partitionSyncSegments twoFiles compare).Holds twoFiles a k) := by
  have hColumns : ∀ column ∈ twoFiles, Ascending compare column := by
    simp only [twoFiles, Ascending]
    decide
  exact ⟨hColumns, (partition_is_finest_cut twoFiles compare hColumns).2.2.1⟩

end GitBranchManager.SyncScroll
