import Mathlib.Data.List.TakeWhile
import Mathlib.Data.List.Pairwise
import Mathlib.Data.List.Sort
import Mathlib.Data.List.Chain
import Mathlib.Order.MinMax
import Mathlib.Order.Nat

/-! # Scans of an ordered list

A scan starts where all before it fails, stops at the first key past the last one wanted, and keeps
what passes. The maximum of a list is found the same way in whatever parts it is looked through.
-/

namespace Library.Scans

variable {α : Type*}

theorem takeWhile_le_eq_filter {key : α → Nat} {xs : List α} (h : xs.Pairwise fun a b => key a ≤ key b)
    (last : Nat) : (xs.takeWhile fun a => key a ≤ last) = xs.filter fun a => key a ≤ last := by
  induction h with
  | nil => rfl
  | @cons a xs hFirst _ ih =>
    rw [List.takeWhile_cons, List.filter_cons]
    split
    next => rw [ih]
    next hLast =>
      rw [decide_eq_true_eq] at hLast
      symm
      rw [List.filter_eq_nil_iff]
      intro b hRest hKey
      exact hLast (Nat.le_trans (hFirst b hRest) (of_decide_eq_true hKey))

/-- What is skipped fails, and what is not looked at is past the last key. -/
theorem filter_scan {key : α → Nat} {xs : List α} (h : xs.Pairwise fun a b => key a ≤ key b) {p : α → Bool}
    {skipped : Nat} (hSkipped : ∀ a ∈ xs.take skipped, p a = false) (last : Nat) :
    ((xs.drop skipped).takeWhile fun a => key a ≤ last).filter p =
      xs.filter fun a => key a ≤ last && p a := by
  have hRest : (xs.drop skipped).Pairwise fun a b => key a ≤ key b := h.sublist (List.drop_sublist _ _)
  have hNone : ((xs.take skipped).filter fun a => key a ≤ last && p a) = [] := by
    rw [List.filter_eq_nil_iff]
    intro a hMem
    rw [hSkipped a hMem, Bool.and_false]
    exact Bool.false_ne_true
  calc
    ((xs.drop skipped).takeWhile fun a => key a ≤ last).filter p
        = (xs.drop skipped).filter fun a => key a ≤ last && p a := by
      rw [takeWhile_le_eq_filter hRest, List.filter_filter]
      exact List.filter_congr fun a _ => Bool.and_comm _ _
    _ = (xs.take skipped ++ xs.drop skipped).filter fun a => key a ≤ last && p a := by
      rw [List.filter_append, hNone, List.nil_append]
    _ = xs.filter fun a => key a ≤ last && p a := by rw [List.take_append_drop]

theorem mem_drop_take {xs : List α} {start stop : Nat} {a : α} :
    a ∈ (xs.take stop).drop start ↔ ∃ i, start ≤ i ∧ i < stop ∧ xs[i]? = some a := by
  rw [List.mem_iff_getElem?]
  constructor
  · rintro ⟨i, hAt⟩
    rw [List.getElem?_drop, List.getElem?_take] at hAt
    split at hAt
    next hStop => exact ⟨start + i, Nat.le_add_right _ _, hStop, hAt⟩
    next => cases hAt
  · rintro ⟨i, hStart, hStop, hAt⟩
    refine ⟨i - start, ?_⟩
    rw [List.getElem?_drop, Nat.add_sub_cancel' hStart, List.getElem?_take, if_pos hStop, hAt]

/-- The maximum is known by its upper bounds. -/
theorem foldl_max_le {β : Type*} [LinearOrder β] {f : α → β} {xs : List α} {widest n : β} :
    xs.foldl (fun widest a => max widest (f a)) widest ≤ n ↔ widest ≤ n ∧ ∀ a ∈ xs, f a ≤ n := by
  induction xs generalizing widest with
  | nil => exact (and_iff_left nofun).symm
  | cons a xs ih => rw [List.foldl_cons, ih, max_le_iff, List.forall_mem_cons, and_assoc]

theorem filterMap_range_getElem? (xs : List α) (offset count : Nat) :
    (List.range count).filterMap (fun i => xs[offset + i]?) = (xs.drop offset).take count := by
  induction count with
  | zero => rfl
  | succ count ih =>
    rw [List.range_succ, List.filterMap_append, ih, List.take_add_one, List.getElem?_drop]
    congr 1

theorem filterMap_range_of_le (xs : List α) {count : Nat} (h : xs.length ≤ count) :
    ((List.range count).filterMap fun i => xs[i]?) = xs := by
  have hSlice := filterMap_range_getElem? xs 0 count
  simp only [Nat.zero_add, List.drop_zero] at hSlice
  rw [hSlice, List.take_of_length_le h]

theorem filter_range_succ (p : Nat → Bool) (n : Nat) :
    (List.range (n + 1)).filter p = (List.range n).filter p ++ if p n then [n] else [] := by
  rw [List.range_succ, List.filter_append, List.filter_singleton]
  cases p n <;> rfl

theorem isChain_and {R S : α → α → Prop} {xs : List α} (hR : xs.IsChain R) (hS : xs.IsChain S) :
    xs.IsChain fun a b => R a b ∧ S a b := by
  rw [List.isChain_iff_getElem] at hR hS ⊢
  exact fun i hNext => ⟨hR i hNext, hS i hNext⟩

/-- Nothing between two kept numbers is kept. -/
theorem isChain_filter_range (p : Nat → Bool) (n : Nat) :
    ((List.range n).filter p).IsChain fun a b => a < b ∧ ∀ l, a < l → l < b → p l = false := by
  induction n with
  | zero => exact .nil
  | succ n ih =>
    rw [filter_range_succ]
    split
    next =>
      refine List.isChain_append.mpr ⟨ih, .singleton n, fun a hLast b hHead => ?_⟩
      obtain rfl := Option.some.inj hHead
      obtain ⟨hMem, -⟩ := List.mem_filter.mp (List.mem_of_getLast? hLast)
      refine ⟨List.mem_range.mp hMem, fun l hAfter hBefore => Bool.eq_false_iff.mpr fun hKept => ?_⟩
      obtain ⟨front, hFront⟩ := List.getLast?_eq_some_iff.mp hLast
      have hOrdered : ((List.range n).filter p).Pairwise (· < ·) := List.pairwise_lt_range.filter p
      have hIn : l ∈ (List.range n).filter p := List.mem_filter.mpr ⟨List.mem_range.mpr hBefore, hKept⟩
      rw [hFront] at hOrdered hIn
      rcases List.mem_append.mp hIn with hEarlier | hSame
      · have hLess := (List.pairwise_append.mp hOrdered).2.2 l hEarlier a (List.mem_singleton.mpr rfl)
        omega
      · exact Nat.ne_of_gt hAfter (List.mem_singleton.mp hSame)
    next =>
      rw [List.append_nil]
      exact ih

/-- The places of some of the elements, each once, name these elements in order when they are sorted. -/
theorem filterMap_places {xs : List α} {p : α → Bool} {places : List Nat} (hNodup : places.Nodup)
    (hMem : ∀ i, i ∈ places ↔ ∃ a, xs[i]? = some a ∧ p a = true) :
    ((places.insertionSort (· ≤ ·)).filterMap fun i => xs[i]?) = xs.filter p := by
  have hOrdered : ((xs.zipIdx.filter fun item => p item.1).map Prod.snd).Pairwise (· < ·) := by
    have hPlaces : (xs.zipIdx.map Prod.snd).Pairwise (· < ·) := by
      rw [List.zipIdx_map_snd]
      exact List.pairwise_lt_range'
    exact hPlaces.sublist (List.filter_sublist.map _)
  have hSame : places.insertionSort (· ≤ ·) = (xs.zipIdx.filter fun item => p item.1).map Prod.snd := by
    refine List.Perm.eq_of_pairwise' (List.pairwise_insertionSort _ _) (hOrdered.imp Nat.le_of_lt) ?_
    refine (List.perm_insertionSort _ _).trans ?_
    rw [List.perm_ext_iff_of_nodup hNodup (hOrdered.imp Nat.ne_of_lt)]
    intro i
    rw [hMem, List.mem_map]
    constructor
    · rintro ⟨a, hAt, hKept⟩
      exact ⟨(a, i), List.mem_filter.mpr ⟨List.mem_zipIdx_iff_getElem?.mpr hAt, hKept⟩, rfl⟩
    · rintro ⟨⟨a, i⟩, hItem, rfl⟩
      obtain ⟨hAt, hKept⟩ := List.mem_filter.mp hItem
      exact ⟨a, List.mem_zipIdx_iff_getElem?.mp hAt, hKept⟩
  calc
    ((places.insertionSort (· ≤ ·)).filterMap fun i => xs[i]?)
        = (xs.zipIdx.filter fun item => p item.1).filterMap fun item => xs[item.2]? := by
      rw [hSame, List.filterMap_map]
      rfl
    _ = (xs.zipIdx.filter fun item => p item.1).filterMap fun item => some item.1 := by
      refine List.filterMap_congr fun item hItem => ?_
      exact List.mem_zipIdx_iff_getElem?.mp (List.mem_of_mem_filter hItem)
    _ = (xs.zipIdx.map Prod.fst).filter p := by
      rw [List.filterMap_eq_map', List.filter_map]
      rfl
    _ = xs.filter p := by rw [List.zipIdx_map_fst]

end Library.Scans

/-! ## Bisection for the last index that passes a test -/

namespace Bisect

/-- The test is taken to fail past the last index that passes it; both ends count. -/
def lastWhere (p : Nat → Bool) (lo hi : Nat) : Nat :=
  if lo < hi then
    if p ((lo + hi + 1) / 2) then lastWhere p ((lo + hi + 1) / 2) hi else lastWhere p lo ((lo + hi + 1) / 2 - 1)
  else lo
  termination_by hi - lo

variable {p : Nat → Bool} {lo hi : Nat}

/-- The answer lies between the ends, passes the test if the lower end does, and is followed by an index that
does not unless it is the upper end. Nothing is asked of the test. -/
theorem lastWhere_spec (h : lo ≤ hi) :
    lo ≤ lastWhere p lo hi ∧ lastWhere p lo hi ≤ hi ∧ (p lo = true → p (lastWhere p lo hi) = true) ∧
      (lastWhere p lo hi < hi → p (lastWhere p lo hi + 1) = false) := by
  induction lo, hi using lastWhere.induct p with
  | case1 lo hi hLess hMid ih =>
    obtain ⟨hLo, hHi, hPass, hNext⟩ := ih (by omega)
    rw [lastWhere, if_pos hLess, if_pos hMid]
    exact ⟨by omega, hHi, fun _ => hPass hMid, hNext⟩
  | case2 lo hi hLess hMid ih =>
    obtain ⟨hLo, hHi, hPass, hNext⟩ := ih (by omega)
    rw [lastWhere, if_pos hLess, if_neg hMid]
    refine ⟨hLo, by omega, hPass, fun _ => ?_⟩
    obtain hEnd | hInner := hHi.eq_or_lt
    · rw [hEnd, Nat.sub_add_cancel (by omega)]
      exact Bool.eq_false_iff.mpr hMid
    · exact hNext hInner
  | case3 lo hi hNot =>
    rw [lastWhere, if_neg hNot]
    exact ⟨le_rfl, h, id, fun hLess => absurd hLess hNot⟩

/-- The first index of a range that fails a test, which passes before it and fails from it on. -/
def lowerBound (p : Nat → Bool) (first count : Nat) : Nat :=
  if 0 < count then
    if p (first + count / 2) then lowerBound p (first + count / 2 + 1) (count - count / 2 - 1)
    else lowerBound p first (count / 2)
  else first
  termination_by count

theorem lowerBound_spec {p : Nat → Bool} {first count : Nat}
    (h : ∀ i j, i ≤ j → j < first + count → p j = true → p i = true) :
    lowerBound p first count ≤ first + count ∧ (∀ i, first ≤ i → i < lowerBound p first count → p i = true) ∧
      ∀ i, lowerBound p first count ≤ i → i < first + count → p i = false := by
  induction first, count using lowerBound.induct p with
  | case1 first count hSome hMid ih =>
    obtain ⟨hEnd, hBefore, hAfter⟩ := ih fun i j hLe hLess => h i j hLe (by omega)
    rw [lowerBound, if_pos hSome, if_pos hMid]
    refine ⟨by omega, fun i _ hLess => ?_, fun i hLe hLess => hAfter i hLe (by omega)⟩
    obtain hLower | hUpper := Nat.lt_or_ge (first + count / 2) i
    · exact hBefore i (by omega) hLess
    · exact h i _ hUpper (by omega) hMid
  | case2 first count hSome hMid ih =>
    obtain ⟨hEnd, hBefore, hAfter⟩ := ih fun i j hLe hLess => h i j hLe (by omega)
    rw [lowerBound, if_pos hSome, if_neg hMid]
    refine ⟨by omega, hBefore, fun i hLe hLess => ?_⟩
    obtain hLower | hUpper := Nat.lt_or_ge i (first + count / 2)
    · exact hAfter i hLe hLower
    · exact Bool.eq_false_iff.mpr fun hPass => hMid (h _ i hUpper hLess hPass)
  | case3 first count hNone =>
    rw [lowerBound, if_neg hNone]
    refine ⟨Nat.le_add_right _ _, fun i hLe hLess => ?_, fun i hLe hLess => ?_⟩
    · omega
    · omega

section Sorted

variable {α κ : Type*} [LinearOrder κ] {key : α → κ} {r : α → α → Prop} [DecidableRel r] {xs : List α} {k : κ}
  {same : α → Bool}

theorem pairwise_insertionSort_key (hr : ∀ a b, r a b ↔ key a ≤ key b) (xs : List α) :
    (xs.insertionSort r).Pairwise fun a b => key a ≤ key b := by
  have : Std.Total r := ⟨fun a b => by rw [hr, hr]; exact le_total _ _⟩
  have : IsTrans α r := ⟨fun a b c => by rw [hr, hr, hr]; exact le_trans⟩
  exact (List.pairwise_insertionSort r xs).imp (hr _ _).mp

/-- A stable sort keeps the order of the elements that share a key. -/
theorem filter_insertionSort_key (hr : ∀ a b, r a b ↔ key a ≤ key b) (hSame : ∀ a, same a = true ↔ key a = k)
    (xs : List α) : (xs.insertionSort r).filter same = xs.filter same := by
  have hOrdered : (xs.filter same).Pairwise r := by
    rw [List.pairwise_filter]
    refine List.pairwise_of_forall fun a b hFirst hSecond => (hr a b).mpr ?_
    rw [(hSame a).mp hFirst, (hSame b).mp hSecond]
  have hKept := (List.sublist_insertionSort hOrdered List.filter_sublist).filter same
  rw [List.filter_filter] at hKept
  simp only [Bool.and_self] at hKept
  exact (hKept.eq_of_length ((List.perm_insertionSort r xs).filter _).length_eq.symm).symm

/-- In a list sorted by a key, the lower bound of a key is where its first element stands. -/
theorem filter_lowerBound_key (h : xs.Pairwise fun a b => key a ≤ key b) (hSame : ∀ a, same a = true ↔ key a = k)
    {p : Nat → Bool} (hp : ∀ i a, xs[i]? = some a → (p i = true ↔ key a < k)) :
    xs[lowerBound p 0 xs.length]?.filter same = xs.find? same := by
  have hSorted : ∀ i j, i ≤ j → j < 0 + xs.length → p j = true → p i = true := by
    intro i j hLe hLess hPass
    rw [Nat.zero_add] at hLess
    obtain rfl | hBefore := hLe.eq_or_lt
    · exact hPass
    rw [hp j _ (List.getElem?_eq_getElem hLess)] at hPass
    rw [hp i _ (List.getElem?_eq_getElem (hBefore.trans hLess))]
    exact (List.pairwise_iff_getElem.mp h i j _ _ hBefore).trans_lt hPass
  obtain ⟨-, hBelow, hAbove⟩ := lowerBound_spec hSorted
  generalize lowerBound p 0 xs.length = found at hBelow hAbove
  have hNotBefore : ∀ j, (hLess : j < xs.length) → j < found → ¬ same xs[j] = true := fun j hLess hBefore hKey =>
    ((hp j _ (List.getElem?_eq_getElem hLess)).mp (hBelow j (Nat.zero_le j) hBefore)).ne ((hSame _).mp hKey)
  have hFrom : ∀ j, (hLess : j < xs.length) → found ≤ j → k ≤ key xs[j] := fun j hLess hFrom =>
    not_lt.mp fun hKey => Bool.eq_false_iff.mp (hAbove j hFrom (by omega))
      ((hp j _ (List.getElem?_eq_getElem hLess)).mpr hKey)
  symm
  cases hFound : xs[found]?.filter same with
  | some a =>
    obtain ⟨hAt, hKey⟩ := Option.filter_eq_some_iff.mp hFound
    obtain ⟨hLess, rfl⟩ := List.getElem?_eq_some_iff.mp hAt
    refine List.find?_eq_some_iff_getElem.mpr ⟨hKey, found, hLess, rfl, fun j hj => ?_⟩
    rw [Bool.not_eq_true']
    exact Bool.eq_false_iff.mpr (hNotBefore j (hj.trans hLess) hj)
  | none =>
    refine List.find?_eq_none.mpr fun a hMem hKey => ?_
    obtain ⟨j, hLess, rfl⟩ := List.getElem_of_mem hMem
    have hLe : found ≤ j := Nat.le_of_not_lt fun hBefore => hNotBefore j hLess hBefore hKey
    have hRange : found < xs.length := Nat.lt_of_le_of_lt hLe hLess
    rw [List.getElem?_eq_getElem hRange, Option.filter_eq_none_iff] at hFound
    -- an element between the bound and one with the key has the key as well
    refine hFound _ rfl ((hSame _).mpr (le_antisymm ?_ (hFrom found hRange le_rfl)))
    obtain rfl | hBefore := hLe.eq_or_lt
    · exact ((hSame _).mp hKey).le
    · exact (List.pairwise_iff_getElem.mp h found j _ hLess hBefore).trans_eq ((hSame _).mp hKey)

end Sorted

end Bisect

/-! ## Sorting by a comparison

A comparison answers an `Ordering`. Comparing by one number and then by something else is
lexicographic.
-/

namespace Library.Comparison

variable {α : Type} {cmp : α → α → Ordering}

section Lexicographic

variable {β : Type} [LinearOrder β] {a b : β} {rest : Ordering}

theorem isLE_compare_then :
    ((compare a b).then rest).isLE = true ↔ a < b ∨ a = b ∧ rest.isLE = true := by
  rcases lt_trichotomy a b with hLess | rfl | hGreater
  · simp [compare_lt_iff_lt.mpr hLess, hLess]
  · simp
  · simp [compare_gt_iff_gt.mpr hGreater, hGreater.not_gt, hGreater.ne']

theorem isLT_compare_then :
    ((compare a b).then rest).isLT = true ↔ a < b ∨ a = b ∧ rest.isLT = true := by
  rcases lt_trichotomy a b with hLess | rfl | hGreater
  · simp [compare_lt_iff_lt.mpr hLess, hLess]
  · simp
  · simp [compare_gt_iff_gt.mpr hGreater, hGreater.not_gt, hGreater.ne']

end Lexicographic

/-- A stable sort; where the comparison is a linear order it gives the only sorted list. -/
def sort (cmp : α → α → Ordering) (items : List α) : List α :=
  items.insertionSort fun a b => (cmp a b).isLE = true

theorem sort_perm (cmp : α → α → Ordering) (items : List α) : (sort cmp items).Perm items :=
  List.perm_insertionSort _ items

theorem pairwise_sort (cmp : α → α → Ordering)
    (hTotal : ∀ a b, (cmp a b).isLE = true ∨ (cmp b a).isLE = true)
    (hTrans : ∀ a b c, (cmp a b).isLE = true → (cmp b c).isLE = true → (cmp a c).isLE = true)
    (items : List α) : (sort cmp items).Pairwise fun a b => (cmp a b).isLE = true := by
  have : Std.Total fun a b => (cmp a b).isLE = true := ⟨hTotal⟩
  have : IsTrans α fun a b => (cmp a b).isLE = true := ⟨hTrans⟩
  exact List.pairwise_insertionSort _ items

end Library.Comparison
