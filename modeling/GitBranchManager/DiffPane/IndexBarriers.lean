import GitBranchManager.DiffPane.DiffScopes

/-! # The changes of the other side, as barriers

The keys are sorted, and the binary search finds whether one of them lies strictly between two
others.
-/

namespace GitBranchManager.DiffPane

open Library

instance : LE IndexKey := ⟨fun a b => (compareIndexKeys a b).isLE = true⟩

instance : LT IndexKey := ⟨fun a b => (compareIndexKeys a b).isLT = true⟩

namespace IndexKey

variable {a b c : IndexKey}

theorem le_iff : a ≤ b ↔
    a.line < b.line ∨ a.line = b.line ∧
      (a.offset < b.offset ∨ a.offset = b.offset ∧ a.rank ≤ b.rank) := by
  change (compareIndexKeys a b).isLE = true ↔ _
  rw [compareIndexKeys, Comparison.isLE_compare_then, Comparison.isLE_compare_then,
    Int.isLE_compare]

theorem lt_iff : a < b ↔
    a.line < b.line ∨ a.line = b.line ∧
      (a.offset < b.offset ∨ a.offset = b.offset ∧ a.rank < b.rank) := by
  change (compareIndexKeys a b).isLT = true ↔ _
  rw [compareIndexKeys, Comparison.isLT_compare_then, Comparison.isLT_compare_then,
    Ordering.isLT_iff_eq_lt, compare_lt_iff_lt]

theorem le_trans (hab : a ≤ b) (hbc : b ≤ c) : a ≤ c := by
  rw [le_iff] at hab hbc ⊢
  omega

theorem lt_trans (hab : a < b) (hbc : b < c) : a < c := by
  rw [lt_iff] at hab hbc ⊢
  omega

theorem lt_irrefl (a : IndexKey) : ¬a < a := by
  rw [lt_iff]
  omega

theorem not_le : ¬a ≤ b ↔ b < a := by
  rw [le_iff, lt_iff]
  omega

theorem lt_of_le_of_lt (hab : a ≤ b) (hbc : b < c) : a < c := by
  rw [le_iff] at hab
  rw [lt_iff] at hbc ⊢
  omega

theorem lt_of_le_of_rank (hab : a ≤ b) (hRank : a.rank ≠ b.rank) : a < b := by
  rw [le_iff] at hab
  rw [lt_iff]
  omega

end IndexKey

namespace IndexBarriers

variable {keys : List IndexKey} {low high : IndexKey}

/-- The search answers the first key after `low`. -/
theorem search_spec (hSorted : keys.Pairwise (· ≤ ·)) (fuel lo hi : Nat) (hRange : lo ≤ hi)
    (hLength : hi ≤ keys.length) (hFuel : hi ≤ lo + fuel)
    (hBelow : ∀ i key, i < lo → keys[i]? = some key → key ≤ low)
    (hAbove : ∀ i key, hi ≤ i → keys[i]? = some key → low < key) :
    ∀ i key, keys[i]? = some key → (i < search keys low fuel lo hi ↔ key ≤ low) := by
  have hStop {lo hi : Nat} (hSame : lo = hi)
      (hBelow : ∀ i key, i < lo → keys[i]? = some key → key ≤ low)
      (hAbove : ∀ i key, hi ≤ i → keys[i]? = some key → low < key) (i : Nat) (key : IndexKey)
      (hKey : keys[i]? = some key) : i < lo ↔ key ≤ low := by
    refine ⟨fun hLess => hBelow i key hLess hKey, fun hLow => Nat.lt_of_not_le fun hle => ?_⟩
    exact IndexKey.not_le.mpr (hAbove i key (hSame ▸ hle) hKey) hLow
  induction fuel generalizing lo hi with
  | zero =>
    simp only [search]
    exact hStop (by omega) hBelow hAbove
  | succ fuel ih =>
    rw [search]
    split
    next hLess =>
      have hMid : (lo + hi) / 2 < keys.length := by omega
      have hSortedAt (i j : Nat) (a b : IndexKey) (hij : i ≤ j) (ha : keys[i]? = some a)
          (hb : keys[j]? = some b) : a ≤ b := by
        obtain ⟨hi, rfl⟩ := List.getElem?_eq_some_iff.mp ha
        obtain ⟨hj, rfl⟩ := List.getElem?_eq_some_iff.mp hb
        rcases Nat.eq_or_lt_of_le hij with rfl | hLess
        · exact IndexKey.le_iff.mpr (by omega)
        · exact List.pairwise_iff_getElem.mp hSorted i j hi hj hLess
      simp only [List.getElem?_eq_getElem hMid]
      split
      next hLow =>
        refine ih _ _ (by omega) hLength (by omega) ?_ hAbove
        intro i key hi hKey
        exact IndexKey.le_trans
          (hSortedAt i _ key _ (by omega) hKey (List.getElem?_eq_getElem hMid)) hLow
      next hNotLow =>
        refine ih _ _ (by omega) (by omega) (by omega) hBelow ?_
        intro i key hi hKey
        refine IndexKey.not_le.mp fun hLow => hNotLow ?_
        exact IndexKey.le_trans (hSortedAt _ i _ key hi (List.getElem?_eq_getElem hMid) hKey) hLow
    next hDone => exact hStop (by omega) hBelow hAbove

theorem anyStrictlyBetween_iff {barriers : IndexBarriers} (hSorted : barriers.keys.Pairwise (· ≤ ·)) :
    barriers.anyStrictlyBetween low high = true ↔ ∃ key ∈ barriers.keys, low < key ∧ key < high := by
  have hSearch := @search_spec barriers.keys low hSorted barriers.keys.length 0 barriers.keys.length
    (Nat.zero_le _) (Nat.le_refl _) (by omega) (fun _ _ hi => absurd hi (Nat.not_lt_zero _))
    (fun i key hi hKey => absurd (List.getElem?_eq_some_iff.mp hKey).1 (Nat.not_lt.mpr hi))
  rw [anyStrictlyBetween, Option.any_eq_true]
  constructor
  · rintro ⟨key, hKey, hHigh⟩
    refine ⟨key, List.mem_of_getElem? hKey, IndexKey.not_le.mp fun hLow => ?_, hHigh⟩
    exact absurd ((hSearch _ key hKey).mpr hLow) (Nat.lt_irrefl _)
  · rintro ⟨key, hMem, hLow, hHigh⟩
    obtain ⟨i, hKey⟩ := List.getElem?_of_mem hMem
    have hFrom : search barriers.keys low barriers.keys.length 0 barriers.keys.length ≤ i :=
      Nat.le_of_not_lt fun hLess => IndexKey.not_le.mpr hLow ((hSearch i key hKey).mp hLess)
    obtain ⟨hi, hKeyEq⟩ := List.getElem?_eq_some_iff.mp hKey
    have hFirst := Nat.lt_of_le_of_lt hFrom hi
    refine ⟨barriers.keys[_], List.getElem?_eq_getElem hFirst, ?_⟩
    refine IndexKey.lt_of_le_of_lt ?_ hHigh
    rcases Nat.eq_or_lt_of_le hFrom with hSame | hLess
    · simp only [hSame, hKeyEq]
      exact IndexKey.le_iff.mpr (by omega)
    · rw [← hKeyEq]
      exact List.pairwise_iff_getElem.mp hSorted _ i hFirst hi hLess

theorem pairwise_ofChanges (sides : List DiffSide) : (ofChanges sides).keys.Pairwise (· ≤ ·) := by
  refine Comparison.pairwise_sort compareIndexKeys ?_ ?_ _
  · intro a b
    change a ≤ b ∨ b ≤ a
    rw [IndexKey.le_iff, IndexKey.le_iff]
    omega
  · exact fun a b c => IndexKey.le_trans

end IndexBarriers

end GitBranchManager.DiffPane
