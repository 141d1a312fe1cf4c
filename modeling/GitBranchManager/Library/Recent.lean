import Mathlib.Data.List.DropRight
import Mathlib.Data.List.Perm.Basic
import Mathlib.Data.List.Nodup
import Mathlib.Algebra.BigOperators.Group.List.Basic
import Mathlib.Data.List.Induction
import Mathlib.Algebra.GroupWithZero.Nat

/-! # The last entries of a growing list

A list that is cut from the front when it grows past a bound holds the last of everything that
was added to it.
-/

namespace Library

variable {α : Type} {n : Nat} {all : List α}

theorem length_rtake (n : Nat) (all : List α) : (all.rtake n).length = min n all.length := by
  rw [List.rtake, List.length_drop]
  omega

theorem rtake_eq_self (h : all.length ≤ n) : all.rtake n = all := by
  rw [List.rtake, Nat.sub_eq_zero_of_le h, List.drop_zero]

theorem map_rtake {β : Type} (f : α → β) (n : Nat) (all : List α) : (all.map f).rtake n = (all.rtake n).map f := by
  rw [List.rtake, List.rtake, List.map_drop, List.length_map]

theorem rtake_suffix (n : Nat) (all : List α) : all.rtake n <:+ all := List.drop_suffix _ _

/-- The list is added to, and then cut. -/
theorem rtake_concat_cut (hBound : 0 < n) (a : α) :
    (all.rtake n).drop (if n ≤ (all.rtake n).length then 1 else 0) ++ [a] = (all ++ [a]).rtake n := by
  obtain ⟨k, rfl⟩ := Nat.exists_eq_succ_of_ne_zero hBound.ne'
  rw [List.rtake_concat_succ, length_rtake]
  congr 1
  by_cases hFull : k + 1 ≤ all.length
  · rw [if_pos (by omega), List.rtake, List.rtake, List.drop_drop]
    congr 1
    omega
  · rw [if_neg (by omega), List.drop_zero, rtake_eq_self (by omega), rtake_eq_self (by omega)]

theorem rtake_append_of_length {before after : List α} (h : after.length = n) :
    (before ++ after).rtake n = after := by
  rw [List.rtake, List.length_append, h, Nat.add_sub_cancel, List.drop_left]

/-- When the last entries all count, they are the last of those that count. -/
theorem rtake_filter {p : α → Bool} (h : ∀ a ∈ all.rtake n, p a = true) : (all.filter p).rtake n = all.rtake n := by
  have hSplit : all.filter p = (all.take (all.length - n)).filter p ++ all.rtake n := by
    conv_lhs => rw [← List.take_append_drop (all.length - n) all]
    rw [List.filter_append]
    congr 1
    exact List.filter_eq_self.mpr h
  rw [hSplit]
  by_cases hFull : n ≤ all.length
  · exact rtake_append_of_length (by rw [length_rtake]; omega)
  · have hShort : all.length - n = 0 := by omega
    have hAll : all.rtake n = all := rtake_eq_self (Nat.le_of_not_le hFull)
    rw [hShort, List.take_zero, List.filter_nil, List.nil_append, hAll, rtake_eq_self (by omega)]

end Library

/-! ## Recency lists

A list of keys with values, most recently used first. Using a key moves it to the front, and a bound on
the weight of the list cuts it at the back.
-/

namespace Library.RecencyList

variable {κ ν : Type*}

/-! ## Weights -/

section Weights

def total (weight : ν → Nat) (items : List (κ × ν)) : Nat := (items.map fun item => weight item.2).sum

/-- As much of the front as the budget allows. -/
def fit (weight : ν → Nat) : Nat → List (κ × ν) → List (κ × ν)
  | _, [] => []
  | budget, item :: items =>
    if weight item.2 ≤ budget then item :: fit weight (budget - weight item.2) items else []

variable {weight : ν → Nat} {budget : Nat} {items : List (κ × ν)}

theorem total_cons (item : κ × ν) (items : List (κ × ν)) :
    total weight (item :: items) = weight item.2 + total weight items := by
  rw [total, List.map_cons, List.sum_cons, total]

theorem total_perm {items' : List (κ × ν)} (h : items.Perm items') : total weight items = total weight items' :=
  (h.map _).sum_eq

theorem fit_starts (weight : ν → Nat) (budget : Nat) (items : List (κ × ν)) : fit weight budget items <+: items := by
  induction items generalizing budget with
  | nil => exact List.prefix_rfl
  | cons item items ih =>
    rw [fit]
    split
    · exact (List.prefix_cons_inj item).mpr (ih _)
    · exact List.nil_prefix

theorem total_fit_le (weight : ν → Nat) (budget : Nat) (items : List (κ × ν)) :
    total weight (fit weight budget items) ≤ budget := by
  induction items generalizing budget with
  | nil => exact Nat.zero_le _
  | cons item items ih =>
    rw [fit]
    split
    next hRoom =>
      have hRest := ih (budget - weight item.2)
      rw [total_cons]
      omega
    next => exact Nat.zero_le _

theorem fit_eq_self (h : total weight items ≤ budget) : fit weight budget items = items := by
  induction items generalizing budget with
  | nil => rfl
  | cons item items ih =>
    rw [total_cons] at h
    rw [fit, if_pos (by omega), ih (by omega)]

/-- One more item would be too much. -/
theorem lt_total_take {n : Nat} (hMore : (fit weight budget items).length < n) (hIn : n ≤ items.length) :
    budget < total weight (items.take n) := by
  induction items generalizing budget n with
  | nil => exact absurd (Nat.lt_of_lt_of_le hMore hIn) (Nat.lt_irrefl 0)
  | cons item items ih =>
    obtain ⟨n, rfl⟩ := Nat.exists_eq_succ_of_ne_zero (Nat.ne_zero_of_lt hMore)
    rw [fit] at hMore
    rw [List.take_succ_cons, total_cons]
    split at hMore
    next hRoom =>
      have hRest := ih (Nat.lt_of_succ_lt_succ hMore) (Nat.le_of_succ_le_succ hIn)
      omega
    next => omega

/-- The last item goes first. -/
theorem fit_concat {last : κ × ν} (h : budget < total weight (items ++ [last])) :
    fit weight budget (items ++ [last]) = fit weight budget items := by
  induction items generalizing budget with
  | nil =>
    rw [List.nil_append, total_cons] at h
    have hOver : budget < weight last.2 := h
    exact if_neg (Nat.not_le_of_lt hOver)
  | cons item items ih =>
    rw [List.cons_append, total_cons] at h
    rw [List.cons_append, fit, fit]
    split
    next hRoom => rw [ih (by omega)]
    next => rfl

theorem fit_map {μ : Type*} (f : ν → μ) {weight : μ → Nat} (budget : Nat) (items : List (κ × ν)) :
    fit weight budget (items.map (Prod.map id f)) = (fit (weight ∘ f) budget items).map (Prod.map id f) := by
  induction items generalizing budget with
  | nil => rfl
  | cons item items ih =>
    rw [List.map_cons, fit, fit, ih]
    split
    next hRoom => rw [if_pos (show (weight ∘ f) item.2 ≤ budget from hRoom)]; rfl
    next hOver => rw [if_neg (show ¬ (weight ∘ f) item.2 ≤ budget from hOver)]; rfl

end Weights

/-! ## Keys -/

section Keys

variable [DecidableEq κ]

def without (key : κ) (items : List (κ × ν)) : List (κ × ν) := items.filter fun item => item.1 ≠ key

def find (key : κ) (items : List (κ × ν)) : Option (κ × ν) := items.find? fun item => item.1 = key

def touch (key : κ) (items : List (κ × ν)) : List (κ × ν) :=
  match find key items with
  | some item => item :: without key items
  | none => items

theorem find_eq_some_iff {key : κ} {items : List (κ × ν)} (h : (items.map Prod.fst).Nodup) {item : κ × ν} :
    find key items = some item ↔ item ∈ items ∧ item.1 = key := by
  constructor
  · intro hFind
    have hKey := List.find?_some hFind
    exact ⟨List.mem_of_find?_eq_some hFind, of_decide_eq_true hKey⟩
  · rintro ⟨hMem, rfl⟩
    induction items with
    | nil => cases hMem
    | cons first items ih =>
      rw [List.map_cons, List.nodup_cons] at h
      rcases List.mem_cons.mp hMem with rfl | hRest
      · exact List.find?_cons_of_pos (decide_eq_true rfl)
      · have hOther : first.1 ≠ item.1 := fun hSame => h.1 (hSame ▸ List.mem_map_of_mem hRest)
        rw [find, List.find?_cons_of_neg (by simpa using hOther)]
        exact ih h.2 hRest

theorem find_eq_none_iff {key : κ} {items : List (κ × ν)} :
    find key items = none ↔ key ∉ items.map Prod.fst := by
  rw [find, List.find?_eq_none, List.mem_map]
  constructor
  · rintro hNone ⟨item, hMem, hKey⟩
    exact hNone item hMem (decide_eq_true hKey)
  · intro hNot item hMem hKey
    exact hNot ⟨item, hMem, of_decide_eq_true hKey⟩

theorem mem_without {key : κ} {items : List (κ × ν)} {item : κ × ν} :
    item ∈ without key items ↔ item ∈ items ∧ item.1 ≠ key := by
  rw [without, List.mem_filter, decide_eq_true_eq]

theorem map_fst_without (key : κ) (items : List (κ × ν)) :
    (without key items).map Prod.fst = (items.map Prod.fst).filter (· ≠ key) := by
  rw [without, List.filter_map]
  rfl

theorem without_eq_self {key : κ} {items : List (κ × ν)} (h : find key items = none) : without key items = items := by
  rw [without, List.filter_eq_self]
  intro item hMem
  exact decide_eq_true fun hKey => find_eq_none_iff.mp h (hKey ▸ List.mem_map_of_mem hMem)

theorem without_concat {items : List (κ × ν)} {last : κ × ν} (h : ((items ++ [last]).map Prod.fst).Nodup) :
    without last.1 (items ++ [last]) = items := by
  rw [List.map_append, List.nodup_append] at h
  obtain ⟨-, -, hApart⟩ := h
  have hFront : without last.1 items = items := by
    refine List.filter_eq_self.mpr fun item hMem => decide_eq_true ?_
    exact hApart item.1 (List.mem_map_of_mem hMem) last.1 (List.mem_singleton.mpr rfl)
  have hLast : without last.1 [last] = [] := List.filter_cons_of_neg (by simp)
  calc
    without last.1 (items ++ [last]) = without last.1 items ++ without last.1 [last] := List.filter_append ..
    _ = items := by rw [hFront, hLast, List.append_nil]

/-- An item and the others. -/
theorem cons_without_perm {key : κ} {items : List (κ × ν)} (h : (items.map Prod.fst).Nodup) {item : κ × ν}
    (hFind : find key items = some item) : (item :: without key items).Perm items := by
  obtain ⟨hMem, rfl⟩ := (find_eq_some_iff h).mp hFind
  have hNodup : items.Nodup := List.Nodup.of_map _ h
  rw [List.perm_ext_iff_of_nodup]
  · intro other
    rw [List.mem_cons, mem_without]
    constructor
    · rintro (rfl | hOther)
      · exact hMem
      · exact hOther.1
    · intro hOther
      by_cases hKey : other.1 = item.1
      · exact .inl (List.inj_on_of_nodup_map h hOther hMem hKey)
      · exact .inr ⟨hOther, hKey⟩
  · exact List.nodup_cons.mpr ⟨fun hIn => (mem_without.mp hIn).2 rfl, hNodup.filter _⟩
  · exact hNodup

/-! Other values under the same keys. -/

section Values

variable {μ : Type*} (f : ν → μ)

theorem find_map (key : κ) (items : List (κ × ν)) :
    find key (items.map (Prod.map id f)) = (find key items).map (Prod.map id f) := by
  rw [find, List.find?_map]
  rfl

theorem without_map (key : κ) (items : List (κ × ν)) :
    without key (items.map (Prod.map id f)) = (without key items).map (Prod.map id f) := by
  rw [without, List.filter_map]
  rfl

theorem touch_map (key : κ) (items : List (κ × ν)) :
    touch key (items.map (Prod.map id f)) = (touch key items).map (Prod.map id f) := by
  rw [touch, touch, find_map, without_map]
  cases find key items with
  | none => rfl
  | some item => rfl

end Values

end Keys

/-! ## Uses -/

inductive Use (κ ν : Type*)
  | get (key : κ)
  | put (key : κ) (value : ν)
  | clear
  deriving DecidableEq, Repr

variable [DecidableEq κ]

namespace Use

def key? : Use κ ν → Option κ
  | .get key => some key
  | .put key _ => some key
  | .clear => none

def value? (key : κ) : Use κ ν → Option ν
  | .put key' value => if key' = key then some value else none
  | _ => none

/-- How many uses ago the key was got or put. -/
def since (uses : List (Use κ ν)) (key : κ) : Nat := uses.reverse.findIdx fun use => use.key? = some key

def lastPut (uses : List (Use κ ν)) (key : κ) : Option ν := uses.reverse.findSome? fun use => use.value? key

variable {uses : List (Use κ ν)} {use : Use κ ν} {key : κ}

theorem since_concat (uses : List (Use κ ν)) (use : Use κ ν) (key : κ) :
    since (uses ++ [use]) key = if use.key? = some key then 0 else since uses key + 1 := by
  rw [since, List.reverse_append, List.reverse_singleton, List.singleton_append, List.findIdx_cons]
  simp only [cond_eq_ite, decide_eq_true_eq]
  rfl

theorem lastPut_concat (uses : List (Use κ ν)) (use : Use κ ν) (key : κ) :
    lastPut (uses ++ [use]) key = (use.value? key).or (lastPut uses key) := by
  rw [lastPut, List.reverse_append, List.reverse_singleton, List.singleton_append, List.findSome?_cons]
  cases use.value? key with
  | none => rfl
  | some value => rfl

end Use

def apply (weight : ν → Nat) (budget : Nat) (items : List (κ × ν)) : Use κ ν → List (κ × ν)
  | .get key => touch key items
  | .put key value => fit weight budget ((key, value) :: without key items)
  | .clear => []

/-- A list that fits its budget goes on fitting. -/
theorem total_apply_le {weight : ν → Nat} {budget : Nat} {items : List (κ × ν)} (hNodup : (items.map Prod.fst).Nodup)
    (hFits : total weight items ≤ budget) (use : Use κ ν) : total weight (apply weight budget items use) ≤ budget := by
  cases use with
  | get key =>
    rw [apply, touch]
    split
    next item hFind => rwa [total_perm (cons_without_perm hNodup hFind)]
    next => exact hFits
  | put key value => exact total_fit_le _ _ _
  | clear => exact Nat.zero_le _

/-- What a list holds of its uses: each key once, the later used before the earlier, with its last value. -/
structure Follows (uses : List (Use κ ν)) (items : List (κ × ν)) : Prop where
  nodup : (items.map Prod.fst).Nodup
  recent : (items.map Prod.fst).Pairwise fun key key' => Use.since uses key < Use.since uses key'
  latest : ∀ item ∈ items, Use.lastPut uses item.1 = some item.2

namespace Follows

variable {uses : List (Use κ ν)} {items : List (κ × ν)}

theorem nil (uses : List (Use κ ν)) : Follows uses ([] : List (κ × ν)) := ⟨List.nodup_nil, .nil, nofun⟩

theorem sublist {items' : List (κ × ν)} (h : Follows uses items) (hPart : items'.Sublist items) :
    Follows uses items' :=
  ⟨h.nodup.sublist (hPart.map _), h.recent.sublist (hPart.map _), fun item hMem => h.latest item (hPart.subset hMem)⟩

/-- The others, one use later. -/
theorem pass {use : Use κ ν} (h : Follows uses items) (hOther : ∀ item ∈ items, use.key? ≠ some item.1) :
    Follows (uses ++ [use]) items := by
  have hLater : ∀ key ∈ items.map Prod.fst, Use.since (uses ++ [use]) key = Use.since uses key + 1 := by
    intro key hMem
    obtain ⟨item, hItem, rfl⟩ := List.mem_map.mp hMem
    rw [Use.since_concat, if_neg (hOther item hItem)]
  refine ⟨h.nodup, h.recent.imp_of_mem fun {key key'} hKey hKey' hLess => ?_, fun item hMem => ?_⟩
  · rw [hLater key hKey, hLater key' hKey']
    exact Nat.succ_lt_succ hLess
  · rw [Use.lastPut_concat, h.latest item hMem]
    have hNone : use.value? item.1 = none := by
      cases use with
      | put key value => exact if_neg fun hKey => hOther item hMem (congrArg some hKey)
      | _ => rfl
    rw [hNone, Option.none_or]

theorem front {use : Use κ ν} {item : κ × ν} (h : Follows uses items) (hKey : use.key? = some item.1)
    (hValue : Use.lastPut (uses ++ [use]) item.1 = some item.2) :
    Follows (uses ++ [use]) (item :: without item.1 items) := by
  have hRest : Follows (uses ++ [use]) (without item.1 items) := by
    refine (h.sublist List.filter_sublist).pass fun other hMem hSame => (mem_without.mp hMem).2 ?_
    exact (Option.some.inj (hKey.symm.trans hSame)).symm
  refine ⟨?_, ?_, ?_⟩
  · rw [List.map_cons, List.nodup_cons, map_fst_without]
    exact ⟨fun hMem => of_decide_eq_true (List.mem_filter.mp hMem).2 rfl, map_fst_without item.1 items ▸ hRest.nodup⟩
  · rw [List.map_cons, List.pairwise_cons]
    refine ⟨fun key hMem => ?_, hRest.recent⟩
    obtain ⟨other, hOther, rfl⟩ := List.mem_map.mp hMem
    rw [Use.since_concat, if_pos hKey, Use.since_concat, if_neg]
    · exact Nat.zero_lt_succ _
    · exact fun hSame => (mem_without.mp hOther).2 (Option.some.inj (hKey.symm.trans hSame)).symm
  · exact List.forall_mem_cons.mpr ⟨hValue, hRest.latest⟩

theorem apply {weight : ν → Nat} {budget : Nat} (h : Follows uses items) (use : Use κ ν) :
    Follows (uses ++ [use]) (apply weight budget items use) := by
  cases use with
  | get key =>
    rw [RecencyList.apply, touch]
    split
    next item hFind =>
      obtain ⟨hMem, rfl⟩ := (find_eq_some_iff h.nodup).mp hFind
      refine h.front rfl ?_
      rw [Use.lastPut_concat, h.latest item hMem]
      rfl
    next hFind =>
      refine h.pass fun item hMem hSame => find_eq_none_iff.mp hFind ?_
      exact Option.some.inj hSame ▸ List.mem_map_of_mem hMem
  | put key value =>
    have hFront : Follows (uses ++ [.put key value]) ((key, value) :: without key items) := by
      refine h.front rfl ?_
      rw [Use.lastPut_concat, Use.value?, if_pos rfl]
      rfl
    exact hFront.sublist (fit_starts _ _ _).sublist
  | clear => exact nil _

end Follows

end Library.RecencyList
