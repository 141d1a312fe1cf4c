import Mathlib.Data.List.Induction
import Mathlib.Data.List.Basic
import Mathlib.Data.List.SplitBy
import Mathlib.Order.Nat

/-! # Lists that are cut into runs

Each item of a list stands for a run of rows, and the rows of all items follow one another. The start of each run
and the owner of each row are two tables of the same cut.
-/

namespace Library.Cuts

variable {α β γ : Type*}

/-! ## Where something holds -/

/-- The places at which a test passes, in order. -/
def places (p : α → Bool) (items : List α) : List Nat :=
  (List.range items.length).filter fun i => items[i]?.any p

theorem mem_places {p : α → Bool} {items : List α} {i : Nat} :
    i ∈ places p items ↔ ∃ a, items[i]? = some a ∧ p a = true := by
  rw [places, List.mem_filter, List.mem_range, Option.any_eq_true]
  exact and_iff_right_of_imp fun ⟨a, hAt, _⟩ => (List.getElem?_eq_some_iff.mp hAt).1

theorem places_concat (p : α → Bool) (items : List α) (a : α) :
    places p (items ++ [a]) = places p items ++ if p a then [items.length] else [] := by
  rw [places, List.length_append, List.length_singleton, List.range_succ, List.filter_append]
  congr 1
  · refine List.filter_congr fun i hi => ?_
    rw [List.getElem?_append_left (List.mem_range.mp hi)]
  · rw [List.filter_singleton, List.getElem?_append_right (Nat.le_refl _), Nat.sub_self, List.getElem?_cons_zero,
      Option.any_some]
    exact Bool.cond_eq_ite _ _ _

/-- What is found at the places is what passes. -/
theorem filterMap_places (p : α → Bool) (items : List α) :
    (places p items).filterMap (fun i => items[i]?) = items.filter p := by
  induction items using List.reverseRecOn with
  | nil => rfl
  | append_singleton items a ih =>
    have hOld : (places p items).filterMap (fun i => (items ++ [a])[i]?) =
        (places p items).filterMap fun i => items[i]? := by
      refine List.filterMap_congr fun i hi => ?_
      obtain ⟨b, hAt, -⟩ := mem_places.mp hi
      exact List.getElem?_append_left (List.getElem?_eq_some_iff.mp hAt).1
    rw [places_concat, List.filterMap_append, hOld, ih, List.filter_append, List.filter_singleton]
    cases p a with
    | false => rfl
    | true =>
      have hLast : (items ++ [a])[items.length]? = some a := List.getElem?_concat_length
      rw [if_pos rfl, List.filterMap_cons_some hLast]
      rfl

/-! ## Starts and owners -/

variable (f : α → List β)

/-- How many rows come before the run of an item. -/
def start (items : List α) (i : Nat) : Nat := ((items.take i).flatMap f).length

def starts (items : List α) : List Nat := (List.range items.length).map (start f items)

/-- The item that each row belongs to. -/
def owners (items : List α) : List Nat :=
  (List.range items.length).flatMap fun i => List.replicate (start f items (i + 1) - start f items i) i

variable {f} {items : List α} {a : α} {i r : Nat}

theorem start_length : start f items items.length = (items.flatMap f).length := by rw [start, List.take_length]

theorem start_append (h : i ≤ items.length) (more : List α) : start f (items ++ more) i = start f items i := by
  rw [start, List.take_append_of_le_length h, ← start]

theorem start_succ (h : items[i]? = some a) : start f items (i + 1) = start f items i + (f a).length := by
  rw [start, List.take_add_one, h, List.flatMap_append, List.length_append, ← start]
  exact congrArg (start f items i + List.length ·) (List.flatMap_singleton f a)

theorem start_mono {j : Nat} (h : i ≤ j) : start f items i ≤ start f items j := by
  have hPrefix : (items.take i).flatMap f <+: (items.take j).flatMap f := by
    rw [← List.take_append_drop i (items.take j), List.take_take, Nat.min_eq_left h, List.flatMap_append]
    exact List.prefix_append _ _
  exact hPrefix.length_le

theorem starts_concat (items : List α) (a : α) :
    starts f (items ++ [a]) = starts f items ++ [(items.flatMap f).length] := by
  rw [starts, List.length_append, List.length_singleton, List.range_succ, List.map_append, List.map_singleton,
    start_append (Nat.le_refl _), start_length]
  congr 1
  exact List.map_congr_left fun i hi => start_append (Nat.le_of_lt (List.mem_range.mp hi)) _

/-- The starts, closed with the number of rows. -/
theorem getElem?_starts (h : i ≤ items.length) :
    (starts f items ++ [(items.flatMap f).length])[i]? = some (start f items i) := by
  have hLength : (starts f items).length = items.length := (List.length_map _).trans List.length_range
  obtain hLess | rfl := Nat.lt_or_eq_of_le h
  · rw [List.getElem?_append_left (hLength.symm ▸ hLess), starts, List.getElem?_map, List.getElem?_range hLess]
    rfl
  · rw [List.getElem?_append_right (hLength.le), hLength, Nat.sub_self, start_length]
    rfl

/-- The run of an item holds the rows it stands for. -/
theorem take_drop_start (h : items[i]? = some a) :
    ((items.flatMap f).drop (start f items i)).take (f a).length = f a := by
  obtain ⟨hLess, rfl⟩ := List.getElem?_eq_some_iff.mp h
  have hSplit : items = items.take i ++ items[i] :: items.drop (i + 1) := by
    rw [← List.drop_eq_getElem_cons hLess, List.take_append_drop]
  have hRows : items.flatMap f = (items.take i).flatMap f ++ (f items[i] ++ (items.drop (i + 1)).flatMap f) := by
    conv_lhs => rw [hSplit, List.flatMap_append, List.flatMap_cons]
  rw [hRows, start, List.drop_left, List.take_left]

theorem owners_concat (items : List α) (a : α) :
    owners f (items ++ [a]) = owners f items ++ List.replicate (f a).length items.length := by
  rw [owners, List.length_append, List.length_singleton, List.range_succ, List.flatMap_append, List.flatMap_singleton,
    start_succ List.getElem?_concat_length, Nat.add_sub_cancel_left]
  congr 1
  refine List.flatMap_congr fun i hi => ?_
  have hLess := List.mem_range.mp hi
  rw [start_append (Nat.le_of_lt hLess), start_append hLess]

theorem length_owners (items : List α) : (owners f items).length = (items.flatMap f).length := by
  induction items using List.reverseRecOn with
  | nil => rfl
  | append_singleton items a ih =>
    rw [owners_concat, List.length_append, ih, List.length_replicate, List.flatMap_append, List.length_append,
      List.flatMap_singleton]

/-- A row belongs to the item in whose run it is. -/
theorem getElem?_owners : (owners f items)[r]? = some i ↔
    i < items.length ∧ start f items i ≤ r ∧ r < start f items (i + 1) := by
  induction items using List.reverseRecOn with
  | nil => exact ⟨nofun, nofun⟩
  | append_singleton items a ih =>
    have hEnd : start f (items ++ [a]) (items.length + 1) = (items.flatMap f).length + (f a).length := by
      rw [start_succ List.getElem?_concat_length, start_append (Nat.le_refl _), start_length]
    have hOld {j : Nat} (hj : j ≤ items.length) : start f (items ++ [a]) j = start f items j := start_append hj _
    have hBound {j : Nat} (hj : j ≤ items.length) : start f items j ≤ (items.flatMap f).length :=
      start_length (f := f) ▸ start_mono hj
    rw [owners_concat, List.length_append, List.length_singleton]
    obtain hRow | hRow := Nat.lt_or_ge r (items.flatMap f).length
    · rw [List.getElem?_append_left (by rw [length_owners]; exact hRow), ih]
      constructor
      · rintro ⟨hi, hRun⟩
        rw [hOld (Nat.le_of_lt hi), hOld hi]
        exact ⟨Nat.lt_succ_of_lt hi, hRun⟩
      · rintro ⟨hi, hStart, hStop⟩
        obtain hi | rfl := Nat.lt_succ_iff_lt_or_eq.mp hi
        · rw [hOld (Nat.le_of_lt hi)] at hStart
          rw [hOld hi] at hStop
          exact ⟨hi, hStart, hStop⟩
        · rw [hOld (Nat.le_refl _), start_length] at hStart
          omega
    · rw [List.getElem?_append_right (by rw [length_owners]; exact hRow), length_owners, List.getElem?_replicate]
      constructor
      · intro h
        split at h
        next hLess =>
          obtain rfl := Option.some.inj h
          rw [hOld (Nat.le_refl _), start_length, hEnd]
          omega
        next => exact nomatch h
      · rintro ⟨hi, -, hStop⟩
        obtain hi | rfl := Nat.lt_succ_iff_lt_or_eq.mp hi
        · rw [hOld hi] at hStop
          have hLast := hBound hi
          omega
        · rw [hEnd] at hStop
          exact if_pos (by omega)

/-! ## Filling the table of owners -/

theorem foldl_set_run (front : List γ) (count rest : Nat) (c d : γ) :
    (List.range' front.length count).foldl (fun t r => t.set r c) (front ++ List.replicate (count + rest) d) =
      front ++ List.replicate count c ++ List.replicate rest d := by
  induction count generalizing front with
  | zero => rw [Nat.zero_add, List.replicate_zero, List.append_nil]; rfl
  | succ count ih =>
    have hSet : (front ++ List.replicate (count + 1 + rest) d).set front.length c =
        (front ++ [c]) ++ List.replicate (count + rest) d := by
      rw [List.set_append_right _ _ (Nat.le_refl _), Nat.sub_self, Nat.add_right_comm, List.replicate_succ,
        List.set_cons_zero, List.append_assoc, List.singleton_append]
    have hNext := ih (front ++ [c])
    rw [List.length_append, List.length_singleton] at hNext
    rw [List.range'_succ, List.foldl_cons, hSet, hNext, List.replicate_succ, List.append_assoc front,
      List.singleton_append]

/-- Writing each item at the rows of its run fills the table. -/
theorem foldl_fill (d : Nat) (items : List α) :
    (List.range items.length).foldl (fun t i =>
        (List.range' (start f items i) (start f items (i + 1) - start f items i)).foldl (fun t r => t.set r i) t)
      (List.replicate (items.flatMap f).length d) = owners f items := by
  suffices hFold : ∀ n ≤ items.length,
      (List.range n).foldl (fun t i =>
          (List.range' (start f items i) (start f items (i + 1) - start f items i)).foldl (fun t r => t.set r i) t)
        (List.replicate (items.flatMap f).length d) =
          owners f (items.take n) ++ List.replicate ((items.flatMap f).length - start f items n) d by
    rw [hFold items.length (Nat.le_refl _), List.take_length, start_length, Nat.sub_self, List.replicate_zero,
      List.append_nil]
  intro n
  induction n with
  | zero => exact fun _ => rfl
  | succ n ih =>
    intro hn
    have hAt : items[n]? = some items[n] := List.getElem?_eq_getElem hn
    have hLength : (owners f (items.take n)).length = start f items n := length_owners _
    have hTake : items.take (n + 1) = items.take n ++ [items[n]] := by
      rw [List.take_add_one, hAt, Option.toList_some]
    have hBound : start f items (n + 1) ≤ (items.flatMap f).length := start_length (f := f) ▸ start_mono hn
    have hSucc := start_succ (f := f) hAt
    have hRest : (items.flatMap f).length - start f items n =
        (f items[n]).length + ((items.flatMap f).length - start f items (n + 1)) := by omega
    have hRun := foldl_set_run (owners f (items.take n)) (f items[n]).length
      ((items.flatMap f).length - start f items (n + 1)) n d
    rw [hLength] at hRun
    rw [List.range_succ, List.foldl_append, ih (Nat.le_of_succ_le hn), List.foldl_cons, List.foldl_nil, hRest,
      hSucc, Nat.add_sub_cancel_left, ← hSucc, hRun, hTake, owners_concat,
      List.length_take_of_le (Nat.le_of_succ_le hn)]

end Library.Cuts

/-! ## Rows laid along a ruler

Some rows of a list are marks of a ruler, the others lie between two marks. A row is placed by
the number of marks before it.
-/

namespace Library.Ruler

variable {α : Type} {mark : α → Bool} {rows : List α}

def passed (mark : α → Bool) (rows : List α) (l : Nat) : Nat := (rows.take l).countP mark

@[simp] theorem passed_zero : passed mark rows 0 = 0 := rfl

theorem passed_succ {l : Nat} {row : α} (h : rows[l]? = some row) :
    passed mark rows (l + 1) = passed mark rows l + if mark row then 1 else 0 := by
  rw [passed, List.take_add_one, h, Option.toList_some, List.countP_append, List.countP_singleton]
  rfl

theorem passed_cons (row : α) (l : Nat) :
    passed mark (row :: rows) (l + 1) = passed mark rows l + if mark row then 1 else 0 := by
  rw [passed, List.take_succ_cons, List.countP_cons]
  rfl

theorem passed_mono {l l' : Nat} (h : l ≤ l') : passed mark rows l ≤ passed mark rows l' :=
  (List.take_sublist_take_left h).countP_le

theorem passed_le_countP (l : Nat) : passed mark rows l ≤ rows.countP mark :=
  (List.take_sublist l rows).countP_le

theorem passed_lt {l l' : Nat} {row : α} (hRow : rows[l]? = some row) (hMark : mark row = true)
    (h : l < l') : passed mark rows l < passed mark rows l' := by
  have hNext : passed mark rows (l + 1) ≤ passed mark rows l' := passed_mono h
  rw [passed_succ hRow, if_pos hMark] at hNext
  exact hNext

/-- No mark is skipped between two rows. -/
theorem exists_mark {l l' k : Nat} (hl : l' ≤ rows.length) (hLow : passed mark rows l ≤ k)
    (hHigh : k < passed mark rows l') :
    ∃ m row, l ≤ m ∧ m < l' ∧ rows[m]? = some row ∧ mark row = true ∧ passed mark rows m = k := by
  induction l' with
  | zero => exact absurd hHigh (Nat.not_lt_zero k)
  | succ l' ih =>
    have hRow := List.getElem?_eq_getElem (Nat.lt_of_succ_le hl)
    rcases Nat.lt_or_ge k (passed mark rows l') with hLess | hLast
    · obtain ⟨m, row, hFrom, hTo, hFound⟩ := ih (Nat.le_of_succ_le hl) hLess
      exact ⟨m, row, hFrom, Nat.lt_succ_of_lt hTo, hFound⟩
    · rw [passed_succ hRow] at hHigh
      split at hHigh
      next hMark =>
        have hSame : passed mark rows l' = k := by omega
        refine ⟨l', _, ?_, Nat.lt_succ_self l', hRow, hMark, hSame⟩
        refine Nat.le_of_not_lt fun hBefore => ?_
        have hPassed := passed_lt hRow hMark hBefore
        omega
      next => omega

end Library.Ruler

/-! ## Neighbours that go together -/

namespace Library.Groups

variable {α : Type*} {r : α → α → Bool}

/-- One more item goes to the last group. -/
theorem splitBy_concat {items : List α} {closed : List (List α)} {group : List α} {last a : α}
    (h : items.splitBy r = closed ++ [group]) (hLast : group.getLast? = some last) (hJoins : r last a = true) :
    (items ++ [a]).splitBy r = closed ++ [group ++ [a]] := by
  obtain ⟨rfl, hNil, hGroups, hApart⟩ := List.splitBy_eq_iff.mp h
  refine List.splitBy_eq_iff.mpr ⟨?_, ?_, fun g hMem => ?_, ?_⟩
  · rw [List.flatten_append, List.flatten_append, List.flatten_singleton, List.flatten_singleton, List.append_assoc]
  · rw [List.mem_append, List.mem_singleton, not_or] at hNil ⊢
    exact ⟨hNil.1, fun hEmpty => List.append_ne_nil_of_right_ne_nil _ (List.cons_ne_nil a []) hEmpty.symm⟩
  · obtain hMem | hMem := List.mem_append.mp hMem
    · exact hGroups g (List.mem_append_left _ hMem)
    · rw [List.mem_singleton.mp hMem, List.isChain_append]
      refine ⟨hGroups group (List.mem_append_right _ (List.mem_singleton.mpr rfl)), List.isChain_singleton a, ?_⟩
      intro x hx y hy
      rw [hLast, Option.mem_some_iff] at hx
      rw [List.head?_singleton, Option.mem_some_iff] at hy
      rwa [← hx, ← hy]
  · rw [List.isChain_append] at hApart ⊢
    obtain ⟨hClosed, -, hLink⟩ := hApart
    refine ⟨hClosed, List.isChain_singleton _, fun x hx y hy => ?_⟩
    obtain ⟨hSome, hGroup, hNot⟩ := hLink x hx group rfl
    rw [List.head?_singleton, Option.mem_some_iff] at hy
    subst hy
    exact ⟨hSome, List.append_ne_nil_of_left_ne_nil hGroup _, (List.head_append_of_ne_nil hGroup).symm ▸ hNot⟩

end Library.Groups
