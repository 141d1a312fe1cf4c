import Mathlib.Data.List.Nodup

/-! # Unfolding an item into all that comes from it

Each item expands into further items of lower rank. The unfolding of an item lists it and what its
expansion unfolds into.
-/

namespace Library

variable {ι κ : Type}

def unfoldN (expand : ι → List ι) : Nat → ι → List ι
  | 0, i => [i]
  | n + 1, i => i :: (expand i).flatMap (unfoldN expand n)

def unfold (expand : ι → List ι) (rank : ι → Nat) (i : ι) : List ι := unfoldN expand (rank i) i

/-- Each item that comes from another has a lower rank. -/
def Ranked (expand : ι → List ι) (rank : ι → Nat) : Prop := ∀ i, ∀ c ∈ expand i, rank c < rank i

/-- The name of an item from another is the other's with one part more. -/
structure Named (expand : ι → List ι) (name : ι → List κ) : Prop where
  child : ∀ i, ∀ c ∈ expand i, ∃ part, name c = name i ++ [part]
  distinct : ∀ i, ((expand i).map name).Nodup

variable {expand : ι → List ι} {rank : ι → Nat} {name : ι → List κ}

theorem Ranked.expand_eq_nil (h : Ranked expand rank) {i : ι} (hRank : rank i = 0) : expand i = [] := by
  refine List.eq_nil_iff_forall_not_mem.mpr fun c hc => ?_
  have hLess := h i c hc
  omega

/-- Enough steps unfold an item entirely. -/
theorem unfoldN_congr (h : Ranked expand rank) (n : Nat) :
    ∀ m i, rank i ≤ n → rank i ≤ m → unfoldN expand n i = unfoldN expand m i := by
  induction n with
  | zero =>
    intro m i hn _
    cases m with
    | zero => rfl
    | succ m =>
      rw [unfoldN, unfoldN, h.expand_eq_nil (Nat.le_zero.mp hn)]
      rfl
  | succ n ih =>
    intro m i hn hm
    cases m with
    | zero =>
      rw [unfoldN, unfoldN, h.expand_eq_nil (Nat.le_zero.mp hm)]
      rfl
    | succ m =>
      rw [unfoldN, unfoldN]
      congr 1
      refine List.flatMap_congr fun c hc => ?_
      have hLess := h i c hc
      exact ih m c (by omega) (by omega)

theorem unfold_eq (h : Ranked expand rank) (i : ι) :
    unfold expand rank i = i :: (expand i).flatMap (unfold expand rank) := by
  rw [unfold, unfoldN_congr h (rank i) (rank i + 1) i (Nat.le_refl _) (Nat.le_succ _), unfoldN]
  congr 1
  refine List.flatMap_congr fun c hc => ?_
  exact unfoldN_congr h (rank i) (rank c) c (Nat.le_of_lt (h i c hc)) (Nat.le_refl _)

/-- What holds of an item and goes over to what it expands into holds of its unfolding. -/
theorem forall_mem_unfold (h : Ranked expand rank) {P : ι → Prop} (hKeep : ∀ i, P i → ∀ c ∈ expand i, P c) {i : ι}
    (hi : P i) : ∀ j ∈ unfold expand rank i, P j := by
  induction hRank : rank i using Nat.strongRecOn generalizing i with
  | ind n ih =>
    intro j hj
    rw [unfold_eq h, List.mem_cons] at hj
    rcases hj with rfl | hBelow
    · exact hi
    · obtain ⟨c, hc, hIn⟩ := List.mem_flatMap.mp hBelow
      exact ih (rank c) (hRank ▸ h i c hc) (hKeep i hi c hc) rfl j hIn

theorem mem_unfold_self (h : Ranked expand rank) (i : ι) : i ∈ unfold expand rank i := by
  rw [unfold_eq h]
  exact List.mem_cons_self

/-- The unfolding of an item is closed under expansion. -/
theorem expand_mem_unfold (h : Ranked expand rank) {i j c : ι} (hj : j ∈ unfold expand rank i) (hc : c ∈ expand j) :
    c ∈ unfold expand rank i := by
  induction hRank : rank i using Nat.strongRecOn generalizing i with
  | ind n ih =>
    rw [unfold_eq h, List.mem_cons] at hj ⊢
    rcases hj with rfl | hBelow
    · exact .inr (List.mem_flatMap.mpr ⟨c, hc, mem_unfold_self h c⟩)
    · obtain ⟨d, hd, hIn⟩ := List.mem_flatMap.mp hBelow
      exact .inr (List.mem_flatMap.mpr ⟨d, hd, ih (rank d) (hRank ▸ h i d hd) hIn rfl⟩)

theorem name_prefix (h : Ranked expand rank) (hNamed : Named expand name) {i j : ι}
    (hj : j ∈ unfold expand rank i) : name i <+: name j := by
  refine forall_mem_unfold h (P := fun j => name i <+: name j) (fun j hPrefix c hc => ?_) (List.prefix_refl _) j hj
  obtain ⟨part, hName⟩ := hNamed.child j c hc
  rw [hName]
  exact hPrefix.trans (List.prefix_append _ _)

/-- An item that is named by its way from the root comes up once. -/
theorem nodup_unfold (h : Ranked expand rank) (hNamed : Named expand name) (i : ι) :
    ((unfold expand rank i).map name).Nodup := by
  induction hRank : rank i using Nat.strongRecOn generalizing i with
  | ind n ih =>
    rw [unfold_eq h, List.map_cons, List.nodup_cons]
    constructor
    · intro hMem
      obtain ⟨j, hj, hName⟩ := List.mem_map.mp hMem
      obtain ⟨c, hc, hIn⟩ := List.mem_flatMap.mp hj
      obtain ⟨part, hChild⟩ := hNamed.child i c hc
      have hPrefix := name_prefix h hNamed hIn
      rw [hName, hChild] at hPrefix
      have hLength := hPrefix.length_le
      rw [List.length_append, List.length_singleton] at hLength
      omega
    · rw [List.map_flatMap, List.nodup_flatMap]
      refine ⟨fun c hc => ih (rank c) (hRank ▸ h i c hc) c rfl, ?_⟩
      have hApart : (expand i).Pairwise fun c d => name c ≠ name d := List.pairwise_map.mp (hNamed.distinct i)
      refine hApart.imp_of_mem fun {c d} hc hd hDiffer => ?_
      apply List.disjoint_left.mpr
      intro path hFirst hSecond
      obtain ⟨j, hj, rfl⟩ := List.mem_map.mp hFirst
      obtain ⟨k, hk, hSame⟩ := List.mem_map.mp hSecond
      refine hDiffer ?_
      have hPrefixC := name_prefix h hNamed hj
      have hPrefixD := name_prefix h hNamed hk
      rw [hSame] at hPrefixD
      obtain ⟨p, hp⟩ := hNamed.child i c hc
      obtain ⟨q, hq⟩ := hNamed.child i d hd
      have hLengths : (name c).length = (name d).length := by rw [hp, hq, List.length_append, List.length_append]; rfl
      exact (List.prefix_of_prefix_length_le hPrefixC hPrefixD (Nat.le_of_eq hLengths)).eq_of_length hLengths

end Library
