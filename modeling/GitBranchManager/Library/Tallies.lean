import GitBranchManager.Library.InsertionMap

/-! # Counts per key

A tally lists the keys that are counted in the order of their first count. A key whose count
reaches zero is dropped.
-/

namespace Library

structure Tally (κ : Type) [DecidableEq κ] where
  counts : InsertionMap κ Nat
  positive : ∀ key n, counts.get? key = some n → 0 < n

namespace Tally

variable {κ : Type} [DecidableEq κ]

def empty : Tally κ := ⟨.empty, fun key n hNone => by cases hNone⟩

def keys (t : Tally κ) : List κ := t.counts.entries.map Prod.fst

def count (t : Tally κ) (key : κ) : Nat := (t.counts.get? key).getD 0

def setCount (t : Tally κ) (key : κ) (n : Nat) (h : 0 < n) : Tally κ :=
  ⟨t.counts.put key n, fun other m hOther => by
    rw [InsertionMap.get?_put] at hOther
    split at hOther
    · exact Option.some.inj hOther ▸ h
    · exact t.positive other m hOther⟩

def add (t : Tally κ) (key : κ) : Tally κ := t.setCount key (t.count key + 1) (Nat.succ_pos _)

def remove (t : Tally κ) (key : κ) : Tally κ :=
  ⟨t.counts.remove key, fun other m hOther => by
    rw [InsertionMap.get?_remove] at hOther
    split at hOther
    · cases hOther
    · exact t.positive other m hOther⟩

/-- One is taken off the count of a key that is counted. -/
def take? (t : Tally κ) (key : κ) : Option (Tally κ) :=
  match t.count key with
  | 0 => none
  | 1 => some (t.remove key)
  | n + 2 => some (t.setCount key (n + 1) (Nat.succ_pos n))

variable (t : Tally κ) (key other : κ)

theorem count_setCount {n : Nat} (h : 0 < n) :
    (t.setCount key n h).count other = if other = key then n else t.count other := by
  rw [count, setCount, InsertionMap.get?_put]
  split
  · rfl
  · rfl

theorem count_add : (t.add key).count other = t.count other + if other = key then 1 else 0 := by
  rw [add, count_setCount]
  split
  next hIs => rw [hIs]
  next => rfl

theorem count_remove : (t.remove key).count other = if other = key then 0 else t.count other := by
  rw [count, remove, InsertionMap.get?_remove]
  split
  · rfl
  · rfl

theorem take?_eq_none : t.take? key = none ↔ t.count key = 0 := by
  rw [take?]
  split
  next h => simp [h]
  next h => simp [h]
  next n h => simp [h]

theorem count_of_take? {t t' : Tally κ} {key : κ} (h : t.take? key = some t') (other : κ) :
    t'.count other = t.count other - if other = key then 1 else 0 := by
  rw [take?] at h
  split at h
  next => cases h
  next hOne =>
    obtain rfl := Option.some.inj h
    rw [count_remove]
    split
    next hIs => rw [hIs, hOne]
    next => rfl
  next n hMore =>
    obtain rfl := Option.some.inj h
    rw [count_setCount]
    split
    next hIs => rw [hIs, hMore]; rfl
    next => rfl

theorem mem_keys : key ∈ t.keys ↔ 0 < t.count key := by
  constructor
  · intro hMem
    cases hGet : t.counts.get? key with
    | none => exact absurd hMem (InsertionMap.get?_eq_none.mp hGet)
    | some n =>
      rw [count, hGet]
      exact t.positive key n hGet
  · intro hPos
    by_contra hNot
    rw [count, InsertionMap.get?_eq_none.mpr hNot] at hPos
    exact Nat.lt_irrefl 0 hPos

end Tally

end Library
