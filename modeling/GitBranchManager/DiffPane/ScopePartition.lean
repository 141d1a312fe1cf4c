import GitBranchManager.DiffPane.ScopeCards
import GitBranchManager.Library.Scans
import Mathlib.Data.List.SplitBy

/-! # Scopes partition the changes

Two consecutive changes are in one scope exactly when they are near enough and no change of another
diff lies between them. The segments draw every line of the hunk but the hidden ones.
-/

namespace GitBranchManager.DiffPane

open Library

theorem changeGroups_eq_splitBy (joins : Nat → Nat → Bool) (changed : List Nat) :
    changeGroups joins changed = changed.splitBy joins := by
  have hLoop (changed : List Nat) : ∀ (last : Nat) (group : List Nat) (groups : List (List Nat)),
      groupChanges joins groups.reverse (group.reverse ++ [last]) changed =
        List.splitBy.loop joins changed last group groups := by
    induction changed with
    | nil =>
      intro last group groups
      rw [groupChanges, List.splitBy.loop, List.reverse_cons, List.reverse_cons]
    | cons index changed ih =>
      intro last group groups
      rw [groupChanges, List.splitBy.loop, List.getLastD_concat]
      cases joins last index with
      | true => rw [if_pos rfl, ← ih, List.reverse_cons]
      | false =>
        rw [if_neg Bool.false_ne_true, ← List.reverse_cons, ← List.reverse_cons]
        exact ih index [] ((last :: group).reverse :: groups)
  cases changed with
  | nil => rfl
  | cons first changed => exact hLoop changed first [] []

section Partition

variable {hunk : DiffHunk} {maxGap : Int} {staged : Bool} {barriers : IndexBarriers} {last index : Nat}

/-- The unchanged lines strictly between two lines. -/
def unchangedBetween (hunk : DiffHunk) (last index : Nat) : Nat :=
  ((hunk.lines.take index).drop (last + 1)).countP fun line => !isChanged line.kind

/-- The rule for two consecutive changes of one scope. -/
def OneScope (hunk : DiffHunk) (maxGap : Int) (staged : Bool) (barriers : IndexBarriers) (last index : Nat) : Prop :=
  unchangedBetween hunk last index ≤ maxGap ∧
    ¬∃ key ∈ barriers.keys, keyAt hunk staged last < key ∧ key < keyAt hunk staged index

/-- A change and the next one. -/
def Next (hunk : DiffHunk) (last index : Nat) : Prop :=
  last < index ∧ index ∈ changedIndices hunk ∧ ∀ l, last < l → l < index → l ∉ changedIndices hunk

theorem isChain_changedIndices (hunk : DiffHunk) : (changedIndices hunk).IsChain (Next hunk) := by
  refine (Scans.isChain_filter_range _ _).imp_of_mem_imp fun last index _ hIndex hNext => ?_
  refine ⟨hNext.1, hIndex, fun l hAfter hBefore hMem => ?_⟩
  rw [changedIndices, List.mem_filter, hNext.2 l hAfter hBefore] at hMem
  exact Bool.false_ne_true hMem.2

theorem unchangedBetween_eq (h : Next hunk last index) : unchangedBetween hunk last index = index - last - 1 := by
  obtain ⟨hLess, hIndex, hBetween⟩ := h
  obtain ⟨line, hLine, -⟩ := mem_changedIndices.mp hIndex
  have hLength := (List.getElem?_eq_some_iff.mp hLine).1
  rw [unchangedBetween, List.countP_eq_length.mpr]
  · rw [List.length_drop, List.length_take]
    omega
  · intro line hMem
    obtain ⟨l, hAfter, hBefore, hAt⟩ := Scans.mem_drop_take.mp hMem
    rw [Bool.not_eq_true', Bool.eq_false_iff]
    exact fun hChanged => hBetween l hAfter hBefore (mem_changedIndices.mpr ⟨line, hAt, hChanged⟩)

theorem joinsChange_iff (hSorted : barriers.keys.Pairwise (· ≤ ·)) (h : Next hunk last index) :
    joinsChange hunk maxGap staged barriers last index = true ↔ OneScope hunk maxGap staged barriers last index := by
  have hGap : (index : Int) - last - 1 = unchangedBetween hunk last index := by
    have hLess := h.1
    rw [unchangedBetween_eq h]
    omega
  have hNone : barriers.keys.isEmpty = true →
      barriers.anyStrictlyBetween (keyAt hunk staged last) (keyAt hunk staged index) ≠ true := by
    intro hEmpty hAny
    obtain ⟨key, hMem, -⟩ := (IndexBarriers.anyStrictlyBetween_iff hSorted).mp hAny
    exact List.ne_nil_of_mem hMem (List.isEmpty_iff.mp hEmpty)
  rw [joinsChange, OneScope, ← IndexBarriers.anyStrictlyBetween_iff hSorted, hGap, Bool.and_eq_true,
    decide_eq_true_eq]
  apply and_congr_right
  intro _
  cases hEmpty : barriers.keys.isEmpty with
  | true => exact iff_of_true rfl (hNone hEmpty)
  | false =>
    rw [Bool.not_false, Bool.true_and, Bool.not_eq_true', Bool.eq_false_iff]
    rfl

theorem counts_scopeFrom {group : List Nat} (h : ∀ l ∈ group, l ∈ changedIndices hunk) :
    (scopeFrom hunk group).addedCount =
        group.countP (fun l => hunk.lines[l]?.any fun line => line.kind == .added) ∧
      (scopeFrom hunk group).removedCount =
        group.countP (fun l => hunk.lines[l]?.any fun line => line.kind == .removed) := by
  refine ⟨rfl, ?_⟩
  have hRemoved : group.countP (fun l => hunk.lines[l]?.any fun line => line.kind == .removed) =
      group.countP (fun l => !hunk.lines[l]?.any fun line => line.kind == .added) := by
    refine List.countP_congr fun l hMem => ?_
    obtain ⟨line, hLine, hChanged⟩ := mem_changedIndices.mp (h l hMem)
    rw [hLine, Option.any_some, Option.any_some]
    rw [isChanged] at hChanged
    revert hChanged
    cases line.kind <;> decide
  have hSplit := List.length_eq_countP_add_countP
    (p := fun l => hunk.lines[l]?.any fun line => line.kind == .added) (l := group)
  change group.length - _ = _
  rw [hRemoved, hSplit]
  simp only [Bool.not_eq_true, Bool.decide_eq_false]
  omega

end Partition

/-- The scopes of a hunk against the changes of any other diffs, and the segments drawn with them. -/
theorem scopes_partition_changes (hunk : DiffHunk) (maxGap : Int) (staged : Bool) (others : List DiffSide)
    (hiddenLines : List Nat) :
    let barriers := IndexBarriers.ofChanges others
    let scopes := splitHunkIntoScopes hunk maxGap staged barriers
    scopes.flatMap DiffScope.changedLineIndices = changedIndices hunk ∧
      (∀ scope ∈ scopes, scope.changedLineIndices ≠ [] ∧
        scope.changedLineIndices.IsChain (OneScope hunk maxGap staged barriers)) ∧
      scopes.IsChain (fun a b => ∃ last ∈ a.changedLineIndices.getLast?, ∃ index ∈ b.changedLineIndices.head?,
        ¬OneScope hunk maxGap staged barriers last index) ∧
      (∀ scope ∈ scopes,
        scope.addedCount = scope.changedLineIndices.countP (fun l =>
          hunk.lines[l]?.any fun line => line.kind == .added) ∧
        scope.removedCount = scope.changedLineIndices.countP (fun l =>
          hunk.lines[l]?.any fun line => line.kind == .removed)) ∧
      (hunkSegments hunk scopes hiddenLines).flatMap DiffSegment.lineIndices =
        (List.range hunk.lines.length).filter fun l => inCards scopes l || !hiddenLines.contains l := by
  have hSorted := IndexBarriers.pairwise_ofChanges others
  dsimp only
  generalize IndexBarriers.ofChanges others = barriers at hSorted
  have hLaid : Laid hunk.lines.length 0 (splitHunkIntoScopes hunk maxGap staged barriers) := laid_split
  have hLines := @lines_segmentsFrom hunk hiddenLines _ 0 hLaid
  rw [Nat.sub_zero, ← List.range_eq_range'] at hLines
  generalize hGroups : changeGroups (joinsChange hunk maxGap staged barriers) (changedIndices hunk) = groups
  have hFlatten : groups.flatten = changedIndices hunk := hGroups ▸ flatten_changeGroups _ _
  have hSome : [] ∉ groups := fun hNil => ne_nil_of_mem_changeGroups (hGroups ▸ hNil) rfl
  -- consecutive changes, within a group and across two groups
  have hNext := isChain_changedIndices hunk
  rw [← hFlatten, List.isChain_flatten hSome] at hNext
  obtain ⟨hWithin, hAcross⟩ := hNext
  rw [changeGroups_eq_splitBy] at hGroups
  have hJoined : ∀ g ∈ groups, g.IsChain (OneScope hunk maxGap staged barriers) := by
    intro g hg
    have hJoins := List.isChain_of_mem_splitBy (hGroups ▸ hg)
    exact (Scans.isChain_and (hWithin g hg) hJoins).imp fun _ _ h => (joinsChange_iff hSorted h.1).mp h.2
  have hApart : groups.IsChain fun a b => ∃ last ∈ a.getLast?, ∃ index ∈ b.head?,
      ¬OneScope hunk maxGap staged barriers last index := by
    have hCut := hGroups ▸ List.isChain_getLast_head_splitBy (joinsChange hunk maxGap staged barriers)
      (changedIndices hunk)
    refine (Scans.isChain_and hAcross hCut).imp fun a b ⟨hNext, ha, hb, hNot⟩ => ?_
    have hLast := List.getLast?_eq_some_getLast ha
    have hHead := List.head?_eq_some_head hb
    refine ⟨_, hLast, _, hHead, fun hOne => ?_⟩
    rw [(joinsChange_iff hSorted (hNext _ hLast _ hHead)).mpr hOne] at hNot
    cases hNot
  have hChanged : ∀ g ∈ groups, ∀ l ∈ g, l ∈ changedIndices hunk :=
    fun g hg l hl => hFlatten ▸ List.mem_flatten.mpr ⟨g, hg, hl⟩
  rw [splitHunkIntoScopes_eq, changeGroups_eq_splitBy, hGroups] at hLines ⊢
  refine ⟨?_, ?_, ?_, ?_, hLines⟩
  · rw [List.flatMap_map, ← hFlatten]
    exact List.flatMap_id
  · rw [List.forall_mem_map]
    exact fun g hg => ⟨fun hNil => hSome (hNil ▸ hg), hJoined g hg⟩
  · rw [List.isChain_map]
    exact hApart
  · rw [List.forall_mem_map]
    exact fun g hg => counts_scopeFrom (hChanged g hg)

end GitBranchManager.DiffPane
