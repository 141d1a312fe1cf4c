import GitBranchManager.DiffPane.IndexBarriers
import GitBranchManager.DiffPane.IndexRuler

/-! # Cards and the changes of the other side

A card runs from its first change to its last. Its span holds no change of the other side, since
the two changes it was joined at had none between them.
-/

namespace GitBranchManager.DiffPane

open Library

section Groups

variable {joins : Nat → Nat → Bool}

theorem flatten_groupChanges (groups : List (List Nat)) (group changed : List Nat) :
    (groupChanges joins groups group changed).flatten = groups.flatten ++ group ++ changed := by
  induction changed generalizing groups group with
  | nil => simp [groupChanges]
  | cons index changed ih =>
    rw [groupChanges]
    split <;> rw [ih] <;> simp

/-- A group has what a single change has and what joining a change keeps. -/
theorem of_mem_groupChanges {P : List Nat → Prop} (hOne : ∀ index, P [index])
    (hJoin : ∀ group index, P group → joins (group.getLastD 0) index = true → P (group ++ [index]))
    {groups : List (List Nat)} {group changed : List Nat} (hGroups : ∀ g ∈ groups, P g)
    (hGroup : P group) : ∀ g ∈ groupChanges joins groups group changed, P g := by
  induction changed generalizing groups group with
  | nil =>
    intro g hg
    rcases List.mem_append.mp hg with hOld | hOpen
    · exact hGroups g hOld
    · exact List.mem_singleton.mp hOpen ▸ hGroup
  | cons index changed ih =>
    rw [groupChanges]
    split
    next hJoins => exact ih hGroups (hJoin group index hGroup hJoins)
    next =>
      refine ih ?_ (hOne index)
      intro g hg
      rcases List.mem_append.mp hg with hOld | hClosed
      · exact hGroups g hOld
      · exact List.mem_singleton.mp hClosed ▸ hGroup

def changeGroups (joins : Nat → Nat → Bool) : List Nat → List (List Nat)
  | [] => []
  | first :: changed => groupChanges joins [] [first] changed

theorem flatten_changeGroups (joins : Nat → Nat → Bool) (changed : List Nat) :
    (changeGroups joins changed).flatten = changed := by
  cases changed with
  | nil => rfl
  | cons first changed => rw [changeGroups, flatten_groupChanges]; rfl

theorem of_mem_changeGroups {P : List Nat → Prop} (hOne : ∀ index, P [index])
    (hJoin : ∀ group index, P group → joins (group.getLastD 0) index = true → P (group ++ [index]))
    {changed : List Nat} : ∀ g ∈ changeGroups joins changed, P g := by
  cases changed with
  | nil => exact fun g hg => absurd hg (List.not_mem_nil)
  | cons first changed =>
    exact of_mem_groupChanges hOne hJoin (fun g hg => absurd hg List.not_mem_nil) (hOne first)

theorem ne_nil_of_mem_changeGroups {changed : List Nat} {g : List Nat}
    (hg : g ∈ changeGroups joins changed) : g ≠ [] :=
  of_mem_changeGroups (P := fun g => g ≠ []) (by simp) (by simp) g hg

end Groups

theorem IndexKey.lt_of_position {a b : IndexPosition} (h : ¬b ≤ a) (rank rank' : Int) :
    a.key rank < b.key rank' := by
  rw [IndexPosition.le_iff] at h
  rw [IndexKey.lt_iff]
  dsimp only [IndexPosition.key]
  omega

section Cards

variable {hunk : DiffHunk} {maxGap : Int} {staged : Bool} {barriers : IndexBarriers}

theorem splitHunkIntoScopes_eq : splitHunkIntoScopes hunk maxGap staged barriers =
    (changeGroups (joinsChange hunk maxGap staged barriers) (changedIndices hunk)).map
      (scopeFrom hunk) := by
  rw [splitHunkIntoScopes]
  cases changedIndices hunk <;> rfl

theorem mem_changedIndices {l : Nat} : l ∈ changedIndices hunk ↔
    ∃ line, hunk.lines[l]? = some line ∧ isChanged line.kind = true := by
  simp only [changedIndices, List.mem_filter, List.mem_range, Option.any_eq_true]
  refine ⟨fun h => h.2, fun ⟨line, hLine, hChanged⟩ => ⟨?_, line, hLine, hChanged⟩⟩
  exact (List.getElem?_eq_some_iff.mp hLine).1

theorem pairwise_changedIndices (hunk : DiffHunk) : (changedIndices hunk).Pairwise (· < ·) :=
  List.pairwise_lt_range.filter _

def keyAt (hunk : DiffHunk) (staged : Bool) (l : Nat) : IndexKey :=
  (indexPositionOf hunk l staged).key (indexRankOf staged)

theorem free_of_joinsChange (hSorted : barriers.keys.Pairwise (· ≤ ·)) {last index : Nat}
    (h : joinsChange hunk maxGap staged barriers last index = true) :
    ¬∃ key ∈ barriers.keys, keyAt hunk staged last < key ∧ key < keyAt hunk staged index := by
  intro hBetween
  have hAny := (IndexBarriers.anyStrictlyBetween_iff hSorted).mpr hBetween
  obtain ⟨key, hMem, _⟩ := hBetween
  have hSome : barriers.keys.isEmpty = false := List.isEmpty_eq_false_iff.mpr (List.ne_nil_of_mem hMem)
  simp only [keyAt] at hAny
  simp only [joinsChange, hAny, hSome, Bool.not_false, Bool.and_self, Bool.not_true, Bool.and_false,
    Bool.false_eq_true] at h

/-- A barrier after the first change of a card is after its last one. -/
theorem barrier_after_card (hSorted : barriers.keys.Pairwise (· ≤ ·))
    (hRank : ∀ key ∈ barriers.keys, key.rank ≠ indexRankOf staged) {g : List Nat}
    (hg : g ∈ changeGroups (joinsChange hunk maxGap staged barriers) (changedIndices hunk)) :
    ∀ key ∈ barriers.keys, keyAt hunk staged (g.headD 0) < key →
      keyAt hunk staged (g.getLastD 0) < key := by
  refine (of_mem_changeGroups (P := fun g => g ≠ [] ∧ ∀ key ∈ barriers.keys,
    keyAt hunk staged (g.headD 0) < key → keyAt hunk staged (g.getLastD 0) < key) ?_ ?_ g hg).2
  · exact fun index => ⟨by simp, fun key _ hFirst => hFirst⟩
  · rintro group index ⟨hSome, hGroup⟩ hJoins
    refine ⟨by simp, fun key hKey hFirst => ?_⟩
    have hHead : (group ++ [index]).headD 0 = group.headD 0 := by
      cases group with
      | nil => exact absurd rfl hSome
      | cons first rest => rfl
    rw [hHead] at hFirst
    rw [List.getLastD_concat]
    have hFree := free_of_joinsChange hSorted hJoins
    refine IndexKey.lt_of_le_of_rank (not_imp_comm.mp IndexKey.not_le.mp fun hBefore => ?_)
      (hRank key hKey).symm
    exact hFree ⟨key, hKey, hGroup key hKey hFirst, hBefore⟩

end Cards

section Sorted

variable {g : List Nat}

theorem headD_mem {l : Nat} (hl : l ∈ g) : g.headD 0 ∈ g := by
  cases g with
  | nil => exact absurd hl List.not_mem_nil
  | cons first rest => exact List.mem_cons_self

theorem getLastD_mem {l : Nat} (hl : l ∈ g) : g.getLastD 0 ∈ g := by
  rw [List.getLastD_eq_getLast?, List.getLast?_eq_some_getLast (List.ne_nil_of_mem hl)]
  exact List.getLast_mem _

theorem headD_le (hSorted : g.Pairwise (· < ·)) {l : Nat} (hl : l ∈ g) : g.headD 0 ≤ l := by
  cases g with
  | nil => exact absurd hl List.not_mem_nil
  | cons first rest =>
    rcases List.mem_cons.mp hl with rfl | hRest
    · exact Nat.le_refl _
    · exact (List.rel_of_pairwise_cons hSorted hRest).le

theorem le_getLastD (hSorted : g.Pairwise (· < ·)) {l : Nat} (hl : l ∈ g) : l ≤ g.getLastD 0 := by
  induction g using List.reverseRecOn with
  | nil => exact absurd hl List.not_mem_nil
  | append_singleton rest last _ =>
    rw [List.getLastD_concat]
    rcases List.mem_append.mp hl with hRest | hLast
    · exact ((List.pairwise_append.mp hSorted).2.2 l hRest last (List.mem_singleton_self _)).le
    · exact (List.mem_singleton.mp hLast).le

theorem headD_span {first last : Nat} (h : first ≤ last) :
    (List.range' first (last + 1 - first)).headD 0 = first := by
  rw [show last + 1 - first = last - first + 1 by omega, List.range'_succ, List.headD_cons]

theorem getLastD_span {first last : Nat} (h : first ≤ last) :
    (List.range' first (last + 1 - first)).getLastD 0 = last := by
  rw [show last + 1 - first = last - first + 1 by omega, List.range'_concat, List.getLastD_concat]
  omega

end Sorted

section Segments

variable {hunk : DiffHunk} {hiddenLines : List Nat} {scopes : List DiffScope} {cursor n : Nat}

/-- The cards are laid from `cursor` on, each a run of rows that ends before the next begins. -/
def Laid (n : Nat) : Nat → List DiffScope → Prop
  | cursor, [] => cursor ≤ n
  | cursor, scope :: scopes => ∃ first last, scope.lineIndices = List.range' first (last + 1 - first) ∧
    cursor ≤ first ∧ first ≤ last ∧ Laid n (last + 1) scopes

theorem Laid.cursor_le (h : Laid n cursor scopes) : cursor ≤ n := by
  induction scopes generalizing cursor with
  | nil => exact h
  | cons scope scopes ih =>
    obtain ⟨first, last, _, hFirst, hLast, hRest⟩ := h
    have hEnd := ih hRest
    omega

theorem Laid.mem_bounds (h : Laid n cursor scopes) {scope : DiffScope} (hScope : scope ∈ scopes)
    {l : Nat} (hl : l ∈ scope.lineIndices) : cursor ≤ l ∧ l < n := by
  induction scopes generalizing cursor with
  | nil => exact absurd hScope List.not_mem_nil
  | cons card scopes ih =>
    obtain ⟨first, last, hCard, hFirst, hLast, hRest⟩ := h
    rcases List.mem_cons.mp hScope with rfl | hLater
    · rw [hCard, List.mem_range'_1] at hl
      have hEnd := hRest.cursor_le
      omega
    · have hBounds := ih hRest hLater
      omega

theorem inCards_iff {l : Nat} : inCards scopes l = true ↔ ∃ scope ∈ scopes, l ∈ scope.lineIndices := by
  simp only [inCards, List.any_eq_true, List.contains_iff_mem]

theorem lines_gapRuns (run rest : List Nat) :
    (gapRuns hiddenLines run rest).flatMap DiffSegment.lineIndices =
      run ++ rest.filter fun l => !hiddenLines.contains l := by
  have hFlush (run : List Nat) : (flushRun run).flatMap DiffSegment.lineIndices = run := by
    cases run <;> simp [flushRun, DiffSegment.lineIndices]
  induction rest generalizing run with
  | nil => rw [gapRuns, hFlush, List.filter_nil, List.append_nil]
  | cons l rest ih =>
    rw [gapRuns, List.filter_cons]
    cases hiddenLines.contains l with
    | true => rw [if_pos rfl, List.flatMap_append, hFlush, ih]; rfl
    | false => rw [if_neg Bool.false_ne_true, ih, List.append_assoc]; rfl

theorem lines_gapUpTo (cursor last : Nat) :
    (gapUpTo hiddenLines cursor last).flatMap DiffSegment.lineIndices =
      (List.range' cursor (last - cursor)).filter fun l => !hiddenLines.contains l := by
  rw [gapUpTo, lines_gapRuns, List.nil_append]

/-- The rows a hunk draws: those of its cards, and the others that are not hidden. -/
theorem lines_segmentsFrom (h : Laid hunk.lines.length cursor scopes) :
    (segmentsFrom hunk hiddenLines cursor scopes).flatMap DiffSegment.lineIndices =
      (List.range' cursor (hunk.lines.length - cursor)).filter fun l =>
        inCards scopes l || !hiddenLines.contains l := by
  induction scopes generalizing cursor with
  | nil =>
    rw [segmentsFrom, lines_gapUpTo]
    simp [inCards]
  | cons scope scopes ih =>
    obtain ⟨first, last, hCard, hFirst, hLast, hRest⟩ := h
    have hEnd := hRest.cursor_le
    have hLen : first < first + (last + 1 - first) := by omega
    have hHead : scope.lineIndices.headD 0 = first := by rw [hCard, headD_span hLast]
    have hTail : scope.lineIndices.getLastD 0 = last := by rw [hCard, getLastD_span hLast]
    have hRows : List.range' cursor (hunk.lines.length - cursor) =
        List.range' cursor (first - cursor) ++ (List.range' first (last + 1 - first) ++
          List.range' (last + 1) (hunk.lines.length - (last + 1))) := by
      have hInner := List.range'_append_1 (s := first) (m := last + 1 - first)
        (n := hunk.lines.length - (last + 1))
      have hOuter := List.range'_append_1 (s := cursor) (m := first - cursor)
        (n := last + 1 - first + (hunk.lines.length - (last + 1)))
      rw [show first + (last + 1 - first) = last + 1 by omega] at hInner
      rw [show cursor + (first - cursor) = first by omega,
        show first - cursor + (last + 1 - first + (hunk.lines.length - (last + 1))) =
          hunk.lines.length - cursor by omega] at hOuter
      rw [hInner, hOuter]
    rw [segmentsFrom, hHead, hTail, List.flatMap_append, List.flatMap_cons, lines_gapUpTo, ih hRest,
      hRows, List.filter_append, List.filter_append]
    congr 1
    · refine List.filter_congr fun l hl => ?_
      have hFromFirst : Laid hunk.lines.length first (scope :: scopes) :=
        ⟨first, last, hCard, Nat.le_refl _, hLast, hRest⟩
      have hOutside : inCards (scope :: scopes) l = false := by
        rw [Bool.eq_false_iff]
        intro hIn
        obtain ⟨card, hMem, hl'⟩ := inCards_iff.mp hIn
        have hBounds := hFromFirst.mem_bounds hMem hl'
        rw [List.mem_range'_1] at hl
        omega
      rw [hOutside, Bool.false_or]
    congr 1
    · change scope.lineIndices = _
      rw [← hCard, List.filter_eq_self.mpr]
      intro l hl
      rw [inCards_iff.mpr ⟨scope, List.mem_cons_self, hl⟩, Bool.true_or]
    · refine List.filter_congr fun l hl => ?_
      have hAfter : scope.lineIndices.contains l = false := by
        rw [Bool.eq_false_iff, Ne, List.contains_iff_mem, hCard, List.mem_range'_1]
        rw [List.mem_range'_1] at hl
        omega
      simp only [inCards, List.any_cons, hAfter, Bool.false_or]

theorem mem_of_gapRuns {run rest acc : List Nat} {l : Nat}
    (h : DiffSegment.gap run ∈ gapRuns hiddenLines acc rest) (hl : l ∈ run) : l ∈ acc ∨ l ∈ rest := by
  have hFlush {acc : List Nat} (h : DiffSegment.gap run ∈ flushRun acc) : l ∈ acc := by
    rw [flushRun] at h
    split at h
    · exact absurd h List.not_mem_nil
    · obtain rfl := DiffSegment.gap.inj (List.mem_singleton.mp h)
      exact hl
  induction rest generalizing acc with
  | nil => exact .inl (hFlush h)
  | cons first rest ih =>
    rw [gapRuns] at h
    split at h
    · rcases List.mem_append.mp h with hRun | hLater
      · exact .inl (hFlush hRun)
      · exact .inr (List.mem_cons_of_mem _ ((ih hLater).resolve_left List.not_mem_nil))
    · rcases ih h with hOpen | hLater
      · rcases List.mem_append.mp hOpen with hAcc | hFirst
        · exact .inl hAcc
        · exact .inr (List.mem_singleton.mp hFirst ▸ List.mem_cons_self)
      · exact .inr (List.mem_cons_of_mem _ hLater)

theorem gap_of_gapRuns {segment : DiffSegment} {run rest : List Nat}
    (h : segment ∈ gapRuns hiddenLines run rest) : ∃ run, segment = .gap run := by
  have hFlush {run : List Nat} (h : segment ∈ flushRun run) : ∃ run, segment = .gap run := by
    rw [flushRun] at h
    split at h
    · exact absurd h List.not_mem_nil
    · exact ⟨run, List.mem_singleton.mp h⟩
  induction rest generalizing run with
  | nil => exact hFlush h
  | cons l rest ih =>
    rw [gapRuns] at h
    split at h
    · exact (List.mem_append.mp h).elim hFlush ih
    · exact ih h

/-- A segment is a run of rows outside of the cards, or a card. -/
theorem segment_cases {segment : DiffSegment} (hLaid : Laid hunk.lines.length cursor scopes)
    (h : segment ∈ segmentsFrom hunk hiddenLines cursor scopes) :
    (∃ run, segment = .gap run ∧
        ∀ l ∈ run, cursor ≤ l ∧ l < hunk.lines.length ∧ inCards scopes l = false) ∨
      ∃ scope ∈ scopes, segment = .scope scope := by
  have hUpTo {cursor last : Nat} (h : segment ∈ gapUpTo hiddenLines cursor last) : ∃ run, segment = .gap run ∧
        ∀ l ∈ run, cursor ≤ l ∧ l < last := by
    obtain ⟨run, rfl⟩ := gap_of_gapRuns h
    refine ⟨run, rfl, fun l hl => ?_⟩
    have hMem := (mem_of_gapRuns h hl).resolve_left List.not_mem_nil
    rw [List.mem_range'_1] at hMem
    omega
  induction scopes generalizing cursor with
  | nil =>
    obtain ⟨run, rfl, hRun⟩ := hUpTo h
    exact .inl ⟨run, rfl, fun l hl => ⟨(hRun l hl).1, (hRun l hl).2, rfl⟩⟩
  | cons scope scopes ih =>
    obtain ⟨first, last, hCard, hFirst, hLast, hRest⟩ := hLaid
    have hEnd := hRest.cursor_le
    have hNotIn {l : Nat} (hl : l < first ∨ last < l) : scope.lineIndices.contains l = false := by
      rw [Bool.eq_false_iff, Ne, List.contains_iff_mem, hCard, List.mem_range'_1]
      omega
    rw [segmentsFrom, List.mem_append, List.mem_cons] at h
    rcases h with hBefore | rfl | hAfter
    · rw [hCard, headD_span hLast] at hBefore
      obtain ⟨run, rfl, hRun⟩ := hUpTo hBefore
      refine .inl ⟨run, rfl, fun l hl => ⟨(hRun l hl).1, by have := hRun l hl; omega, ?_⟩⟩
      rw [inCards, List.any_cons, hNotIn (.inl (hRun l hl).2), Bool.false_or, ← inCards,
        Bool.eq_false_iff]
      intro hIn
      obtain ⟨card, hMem, hl'⟩ := inCards_iff.mp hIn
      have hBounds := hRest.mem_bounds hMem hl'
      have hRunBounds := hRun l hl
      omega
    · exact .inr ⟨scope, List.mem_cons_self, rfl⟩
    · rw [hCard, getLastD_span hLast] at hAfter
      rcases ih hRest hAfter with ⟨run, rfl, hRun⟩ | ⟨card, hMem, hEq⟩
      · refine .inl ⟨run, rfl, fun l hl => ?_⟩
        obtain ⟨hLow, hHigh, hOutside⟩ := hRun l hl
        refine ⟨by omega, hHigh, ?_⟩
        rw [inCards, List.any_cons, hNotIn (.inr (by omega)), Bool.false_or]
        exact hOutside
      · exact .inr ⟨card, List.mem_cons_of_mem _ hMem, hEq⟩

theorem laid_of_groups {groups : List (List Nat)} (hSome : ∀ g ∈ groups, g ≠ [])
    (hSorted : groups.flatten.Pairwise (· < ·))
    (hBounds : ∀ l ∈ groups.flatten, cursor ≤ l ∧ l < n) (hCursor : cursor ≤ n) :
    Laid n cursor (groups.map (scopeFrom hunk)) := by
  induction groups generalizing cursor with
  | nil => exact hCursor
  | cons g groups ih =>
    rw [List.flatten_cons, List.pairwise_append] at hSorted
    obtain ⟨hGroup, hRest, hAcross⟩ := hSorted
    obtain ⟨l, hl⟩ := List.exists_mem_of_ne_nil g (hSome g List.mem_cons_self)
    have hFirst := headD_mem hl
    have hLast := getLastD_mem hl
    have hFirstBounds := hBounds _ (List.mem_append_left _ hFirst)
    have hLastBounds := hBounds _ (List.mem_append_left _ hLast)
    refine ⟨g.headD 0, g.getLastD 0, rfl, hFirstBounds.1, headD_le hGroup hLast, ?_⟩
    refine ih (fun g' hg' => hSome g' (List.mem_cons_of_mem _ hg')) hRest ?_ hLastBounds.2
    exact fun l hl => ⟨hAcross _ hLast l hl, (hBounds l (List.mem_append_right _ hl)).2⟩

end Segments

/-- A card of a hunk: the rows from a change to a change, no barrier in between. -/
structure IsCard (hunk : DiffHunk) (staged : Bool) (barriers : IndexBarriers) (scope : DiffScope)
    (first last : Nat) : Prop where
  rows : scope.lineIndices = List.range' first (last + 1 - first)
  order : first ≤ last
  firstChanged : first ∈ changedIndices hunk
  lastChanged : last ∈ changedIndices hunk
  free : ∀ key ∈ barriers.keys, keyAt hunk staged first < key → keyAt hunk staged last < key

section Split

variable {hunk : DiffHunk} {maxGap : Int} {staged : Bool} {barriers : IndexBarriers}

theorem laid_split : Laid hunk.lines.length 0 (splitHunkIntoScopes hunk maxGap staged barriers) := by
  rw [splitHunkIntoScopes_eq]
  refine laid_of_groups (fun g => ne_nil_of_mem_changeGroups) ?_ ?_ (Nat.zero_le _)
  · rw [flatten_changeGroups]
    exact pairwise_changedIndices hunk
  · intro l hl
    rw [flatten_changeGroups, mem_changedIndices] at hl
    obtain ⟨line, hLine, _⟩ := hl
    exact ⟨Nat.zero_le _, (List.getElem?_eq_some_iff.mp hLine).1⟩

theorem sorted_of_mem_changeGroups {g : List Nat}
    (hg : g ∈ changeGroups (joinsChange hunk maxGap staged barriers) (changedIndices hunk)) :
    g.Pairwise (· < ·) ∧ ∀ l ∈ g, l ∈ changedIndices hunk := by
  have hFlatten := flatten_changeGroups (joinsChange hunk maxGap staged barriers) (changedIndices hunk)
  refine ⟨?_, fun l hl => hFlatten ▸ List.mem_flatten.mpr ⟨g, hg, hl⟩⟩
  have hSorted := pairwise_changedIndices hunk
  rw [← hFlatten, List.pairwise_flatten] at hSorted
  exact hSorted.1 g hg

/-- Every changed row is in a card. -/
theorem inCards_of_changed {l : Nat} (h : l ∈ changedIndices hunk) :
    inCards (splitHunkIntoScopes hunk maxGap staged barriers) l = true := by
  rw [← flatten_changeGroups (joinsChange hunk maxGap staged barriers) (changedIndices hunk),
    List.mem_flatten] at h
  obtain ⟨g, hg, hl⟩ := h
  obtain ⟨hSorted, _⟩ := sorted_of_mem_changeGroups hg
  rw [splitHunkIntoScopes_eq, inCards_iff]
  refine ⟨scopeFrom hunk g, List.mem_map_of_mem hg, ?_⟩
  have hLow := headD_le hSorted hl
  have hHigh := le_getLastD hSorted hl
  change l ∈ List.range' (g.headD 0) (g.getLastD 0 + 1 - g.headD 0)
  rw [List.mem_range'_1]
  omega

theorem isCard_of_mem (hSorted : barriers.keys.Pairwise (· ≤ ·))
    (hRank : ∀ key ∈ barriers.keys, key.rank ≠ indexRankOf staged) {scope : DiffScope}
    (h : scope ∈ splitHunkIntoScopes hunk maxGap staged barriers) :
    ∃ first last, IsCard hunk staged barriers scope first last := by
  rw [splitHunkIntoScopes_eq] at h
  obtain ⟨g, hg, rfl⟩ := List.mem_map.mp h
  obtain ⟨hGroup, hChanged⟩ := sorted_of_mem_changeGroups hg
  obtain ⟨l, hl⟩ := List.exists_mem_of_ne_nil g (ne_nil_of_mem_changeGroups hg)
  have hFirst := headD_mem hl
  have hLast := getLastD_mem hl
  exact ⟨g.headD 0, g.getLastD 0, rfl, headD_le hGroup hLast, hChanged _ hFirst, hChanged _ hLast,
    barrier_after_card hSorted hRank hg⟩

end Split

end GitBranchManager.DiffPane
