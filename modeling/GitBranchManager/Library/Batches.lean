import Mathlib.Data.List.Induction
import Mathlib.Data.Nat.Find

/-! # Logs of items that wait for a cut

A record of a log carries an item or cuts the log; an item waits until the first cut after it.
-/

namespace Library.Batches

variable {ε α : Type} (item : ε → Option α)

def waiting (log : List ε) : List α :=
  log.foldl (fun items record =>
    match item record with
    | some a => items ++ [a]
    | none => []) []

/-- No cut follows position `i`. -/
def Waits (log : List ε) (i : Nat) : Prop :=
  ∀ k record, i < k → log[k]? = some record → item record ≠ none

/-- Position `j` holds the first cut after position `i`. -/
structure Cuts (log : List ε) (i j : Nat) : Prop where
  after : i < j
  cut : ∃ record, log[j]? = some record ∧ item record = none
  first : ∀ k record, i < k → k < j → log[k]? = some record → item record ≠ none

variable {item} {log : List ε} {record : ε} {i j : Nat}

@[simp] theorem waiting_nil : waiting item ([] : List ε) = [] := rfl

theorem waiting_item {a : α} (h : item record = some a) :
    waiting item (log ++ [record]) = waiting item log ++ [a] := by
  simp [waiting, h]

theorem waiting_cut (h : item record = none) : waiting item (log ++ [record]) = [] := by
  simp [waiting, h]

theorem Cuts.unique {j' : Nat} (h : Cuts item log i j) (h' : Cuts item log i j') : j = j' := by
  obtain ⟨record, hRecord, hCut⟩ := h.cut
  obtain ⟨record', hRecord', hCut'⟩ := h'.cut
  rcases Nat.lt_trichotomy j j' with hLess | hEq | hLess
  · exact absurd hCut (h'.first j record h.after hLess hRecord)
  · exact hEq
  · exact absurd hCut' (h.first j' record' h'.after hLess hRecord')

theorem waits_or_cuts (item : ε → Option α) (log : List ε) (i : Nat) :
    Waits item log i ∨ ∃ j, Cuts item log i j := by
  by_cases hCut : ∃ j, i < j ∧ ∃ record, log[j]? = some record ∧ item record = none
  · right
    classical
    obtain ⟨hAfter, hRecord⟩ := Nat.find_spec hCut
    refine ⟨Nat.find hCut, hAfter, hRecord, ?_⟩
    intro k record hk hBefore hEntry hNone
    exact Nat.find_min hCut hBefore ⟨hk, record, hEntry, hNone⟩
  · left
    intro k record hk hEntry hNone
    exact hCut ⟨k, hk, record, hEntry, hNone⟩

theorem waits_append_item {a : α} (h : item record = some a) :
    Waits item (log ++ [record]) i ↔ Waits item log i := by
  constructor
  · intro hWaits k entry hk hEntry
    exact hWaits k entry hk (List.getElem?_append_left (List.getElem?_eq_some_iff.mp hEntry).1 ▸ hEntry)
  · intro hWaits k entry hk hEntry
    rcases Nat.lt_or_ge k log.length with hLess | hLast
    · rw [List.getElem?_append_left hLess] at hEntry
      exact hWaits k entry hk hEntry
    · rw [List.getElem?_append_right hLast] at hEntry
      obtain rfl := List.mem_singleton.mp (List.mem_of_getElem? hEntry)
      simp [h]

theorem mem_waiting {a : α} : a ∈ waiting item log ↔
    ∃ i record, log[i]? = some record ∧ item record = some a ∧ Waits item log i := by
  induction log using List.reverseRecOn with
  | nil => simp
  | append_singleton log last ih =>
    have hLast : (log ++ [last])[log.length]? = some last := List.getElem?_concat_length
    cases hItem : item last with
    | none =>
      rw [waiting_cut hItem]
      refine ⟨fun hMem => absurd hMem List.not_mem_nil, ?_⟩
      rintro ⟨i, record, hEntry, hRecord, hWaits⟩
      have hi := (List.getElem?_eq_some_iff.mp hEntry).1
      rw [List.length_append, List.length_singleton] at hi
      rcases Nat.lt_or_eq_of_le (Nat.le_of_lt_succ hi) with hLess | rfl
      · exact absurd hItem (hWaits log.length last hLess hLast)
      · obtain rfl := Option.some.inj (hLast.symm.trans hEntry)
        exact absurd (hItem.symm.trans hRecord) (by simp)
    | some b =>
      rw [waiting_item hItem, List.mem_append, List.mem_singleton, ih]
      constructor
      · rintro (⟨i, record, hEntry, hRecord, hWaits⟩ | rfl)
        · have hi := (List.getElem?_eq_some_iff.mp hEntry).1
          exact ⟨i, record, (List.getElem?_append_left hi).trans hEntry, hRecord,
            (waits_append_item hItem).mpr hWaits⟩
        · refine ⟨log.length, last, hLast, hItem, ?_⟩
          intro k record hk hEntry
          have hBound := (List.getElem?_eq_some_iff.mp hEntry).1
          rw [List.length_append, List.length_singleton] at hBound
          omega
      · rintro ⟨i, record, hEntry, hRecord, hWaits⟩
        rcases Nat.lt_or_ge i log.length with hi | hi
        · rw [List.getElem?_append_left hi] at hEntry
          exact .inl ⟨i, record, hEntry, hRecord, (waits_append_item hItem).mp hWaits⟩
        · rw [List.getElem?_append_right hi] at hEntry
          obtain rfl := List.mem_singleton.mp (List.mem_of_getElem? hEntry)
          exact .inr (Option.some.inj (hRecord.symm.trans hItem))

/-- The items that wait before a cut are the ones it cuts off. -/
theorem mem_waiting_take {a : α} (hRecord : log[j]? = some record) (hCut : item record = none) :
    a ∈ waiting item (log.take j) ↔
      ∃ i record, log[i]? = some record ∧ item record = some a ∧ Cuts item log i j := by
  rw [mem_waiting]
  constructor
  · rintro ⟨i, entry, hEntry, hItem, hWaits⟩
    rw [List.getElem?_take] at hEntry
    split at hEntry
    next hi =>
      refine ⟨i, entry, hEntry, hItem, hi, ⟨record, hRecord, hCut⟩, ?_⟩
      intro k other hk hBefore hOther
      exact hWaits k other hk (by rwa [List.getElem?_take_of_lt hBefore])
    next => cases hEntry
  · rintro ⟨i, entry, hEntry, hItem, hCuts⟩
    refine ⟨i, entry, by rwa [List.getElem?_take_of_lt hCuts.after], hItem, ?_⟩
    intro k other hk hOther
    rw [List.getElem?_take] at hOther
    split at hOther
    next hBefore => exact hCuts.first k other hk hBefore hOther
    next => cases hOther

end Library.Batches
