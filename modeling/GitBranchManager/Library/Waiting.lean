import Mathlib.Data.List.Nodup

/-! # Pools of items that wait for a key and hold a slot

A pool lists its items oldest first. Several items may hold one slot; a pool is exclusive
when the items of a slot all wait for the same key, so that the arrival of a key empties
every slot its items held.
-/

namespace Library.Waiting

variable {κ ν σ : Type}

/-- Two items in a slot that `own` marks as unshared wait for the same key. -/
def Exclusive (slot : ν → σ) (own : σ → Prop) (pool : List (κ × ν)) : Prop :=
  ∀ a ∈ pool, ∀ b ∈ pool, own (slot a.2) → slot a.2 = slot b.2 → a.1 = b.1

section Exclusive

variable {slot : ν → σ} {own : σ → Prop} {pool : List (κ × ν)} {key : κ}

theorem Exclusive.nil : Exclusive slot own ([] : List (κ × ν)) := by
  intro a ha
  cases ha

theorem Exclusive.subset {rest : List (κ × ν)} (h : Exclusive slot own pool) (hSub : rest ⊆ pool) :
    Exclusive slot own rest :=
  fun a ha b hb => h a (hSub ha) b (hSub hb)

theorem Exclusive.append (h : Exclusive slot own pool) {v : ν}
    (hv : own (slot v) → ∀ item ∈ pool, slot item.2 = slot v → item.1 = key) :
    Exclusive slot own (pool ++ [(key, v)]) := by
  intro a ha b hb hOwn hSlot
  rw [List.mem_append, List.mem_singleton] at ha hb
  rcases ha with ha | rfl <;> rcases hb with hb | rfl
  · exact h a ha b hb hOwn hSlot
  · exact hv (hSlot ▸ hOwn) a ha hSlot
  · exact (hv hOwn b hb hSlot.symm).symm
  · rfl

end Exclusive

section Holders

variable [DecidableEq σ] {slot : ν → σ} {pool : List (κ × ν)}

def holders (slot : ν → σ) (pool : List (κ × ν)) (s : σ) : Nat :=
  pool.countP fun item => slot item.2 = s

@[simp] theorem holders_nil (s : σ) : holders slot ([] : List (κ × ν)) s = 0 := rfl

@[simp] theorem holders_append (pool rest : List (κ × ν)) (s : σ) :
    holders slot (pool ++ rest) s = holders slot pool s + holders slot rest s :=
  List.countP_append

@[simp] theorem holders_singleton (item : κ × ν) (s : σ) :
    holders slot [item] s = if slot item.2 = s then 1 else 0 := by
  simp [holders, List.countP_cons]

theorem holders_pos {s : σ} : 0 < holders slot pool s ↔ ∃ item ∈ pool, slot item.2 = s := by
  simp [holders, List.countP_pos_iff]

theorem holders_eq_zero {s : σ} : holders slot pool s = 0 ↔ ∀ item ∈ pool, slot item.2 ≠ s := by
  simp [holders, List.countP_eq_zero]

end Holders

section Arrival

variable [DecidableEq κ] {slot : ν → σ} {own : σ → Prop} {pool : List (κ × ν)} {key : κ}

def waiting (pool : List (κ × ν)) (key : κ) : List ν :=
  (pool.filter fun item => item.1 = key).map Prod.snd

def discard (pool : List (κ × ν)) (key : κ) : List (κ × ν) :=
  pool.filter fun item => item.1 ≠ key

@[simp] theorem mem_waiting {v : ν} : v ∈ waiting pool key ↔ (key, v) ∈ pool := by
  simp [waiting]

@[simp] theorem mem_discard {item : κ × ν} :
    item ∈ discard pool key ↔ item ∈ pool ∧ item.1 ≠ key := by
  simp [discard]

theorem discard_subset (pool : List (κ × ν)) (key : κ) : discard pool key ⊆ pool :=
  fun _ hMem => (mem_discard.mp hMem).1

/-- A slot's items either wait for the key or stay when it arrives. -/
theorem holders_eq_waiting_add [DecidableEq σ] (pool : List (κ × ν)) (key : κ) (s : σ) :
    holders slot pool s =
      (waiting pool key).countP (fun v => slot v = s) + holders slot (discard pool key) s := by
  simp only [holders, waiting, discard, List.countP_map, List.countP_filter]
  induction pool with
  | nil => rfl
  | cons item pool ih =>
    simp only [List.countP_cons, ih, Function.comp]
    by_cases hKey : item.1 = key <;> by_cases hSlot : slot item.2 = s <;> simp [hKey, hSlot] <;> omega

/-- A key that arrives takes every item out of the slots its items held. -/
theorem Exclusive.slot_ne_of_discard (h : Exclusive slot own pool) {v : ν}
    (hv : v ∈ waiting pool key) (hOwn : own (slot v)) :
    ∀ item ∈ discard pool key, slot item.2 ≠ slot v := by
  intro item hItem hSlot
  obtain ⟨hMem, hKey⟩ := mem_discard.mp hItem
  exact hKey (h _ (mem_waiting.mp hv) item hMem hOwn hSlot.symm).symm

/-- Where each item carries a ticket of its own, no item that stays has the ticket of one that
is taken. -/
theorem ticket_ne_of_discard {τ : Type} {ticket : ν → τ}
    (h : (pool.map fun item => ticket item.2).Nodup) {v : ν} (hv : v ∈ waiting pool key)
    {item : κ × ν} (hItem : item ∈ discard pool key) : ticket item.2 ≠ ticket v := by
  obtain ⟨hMem, hKey⟩ := mem_discard.mp hItem
  intro hTicket
  have hSame := List.inj_on_of_nodup_map h hMem (mem_waiting.mp hv) hTicket
  exact hKey (congrArg Prod.fst hSame)

theorem nodup_map_discard {τ : Type} {ticket : ν → τ}
    (h : (pool.map fun item => ticket item.2).Nodup) (key : κ) :
    ((discard pool key).map fun item => ticket item.2).Nodup :=
  h.sublist (List.filter_sublist.map _)

end Arrival

end Library.Waiting
