import Mathlib.Data.List.Basic
import Mathlib.Algebra.Ring.Nat

/-! # Packed records

Numbers lie in memory least significant byte first, and the items of an array one after another in records of one
length. A record is read back from its offset, whatever lies around it.
-/

namespace Library.Packed

/-! ## Numbers -/

def encode : Nat → Nat → List UInt8
  | 0, _ => []
  | width + 1, n => UInt8.ofNat n :: encode width (n / 256)

def decode : List UInt8 → Nat
  | [] => 0
  | b :: bytes => b.toNat + 256 * decode bytes

@[simp] theorem length_encode (width n : Nat) : (encode width n).length = width := by
  induction width generalizing n with
  | zero => rfl
  | succ width ih => rw [encode, List.length_cons, ih]

theorem decode_encode {width n : Nat} (h : n < 256 ^ width) : decode (encode width n) = n := by
  induction width generalizing n with
  | zero =>
    obtain rfl : n = 0 := by omega
    rfl
  | succ width ih =>
    have hRest : n / 256 < 256 ^ width := by
      rw [Nat.pow_succ] at h
      omega
    rw [encode, decode, ih hRest, UInt8.toNat_ofNat']
    omega

/-- The number in `width` bytes at an offset; there is none past the end. -/
def getUint (width : Nat) (data : List UInt8) (at_ : Nat) : Option Nat :=
  if at_ + width ≤ data.length then some (decode ((data.drop at_).take width)) else none

theorem getUint_append_right {width at_ : Nat} {front : List UInt8} (h : front.length ≤ at_) (data : List UInt8) :
    getUint width (front ++ data) at_ = getUint width data (at_ - front.length) := by
  have hInside : at_ + width ≤ (front ++ data).length ↔ at_ - front.length + width ≤ data.length := by
    rw [List.length_append]
    omega
  rw [getUint, getUint, List.drop_append, List.drop_eq_nil_of_le h, List.nil_append]
  simp only [hInside]

theorem getUint_encode {width n : Nat} (hFits : n < 256 ^ width) (rest : List UInt8) :
    getUint width (encode width n ++ rest) 0 = some n := by
  have hInside : 0 + width ≤ (encode width n ++ rest).length := by
    rw [List.length_append, length_encode]
    omega
  rw [getUint, if_pos hInside, List.drop_zero, List.take_left' (length_encode width n), decode_encode hFits]

theorem getUint_one (data : List UInt8) (at_ : Nat) : getUint 1 data at_ = data[at_]?.map UInt8.toNat := by
  rw [getUint]
  split
  next hInside =>
    have hLess : at_ < data.length := hInside
    rw [List.getElem?_eq_getElem hLess, List.drop_eq_getElem_cons hLess]
    rfl
  next hOutside =>
    rw [List.getElem?_eq_none (by omega)]
    rfl

/-! ## Records -/

variable {α β : Type*}

/-- Reading at every multiple of the stride. -/
def getRecords (read : List UInt8 → Nat → Option β) (data : List UInt8) (stride count : Nat) : Option (List β) :=
  (List.range count).mapM fun i => read data (i * stride)

theorem mapM_range' {f : Nat → Option β} {g : α → β} {items : List α} {start : Nat}
    (h : ∀ i a, items[i]? = some a → f (start + i) = some (g a)) :
    (List.range' start items.length).mapM f = some (items.map g) := by
  induction items generalizing start with
  | nil => rfl
  | cons a items ih =>
    have hFirst : f start = some (g a) := h 0 a rfl
    have hRest : (List.range' (start + 1) items.length).mapM f = some (items.map g) := by
      apply ih
      intro i b hItem
      rw [Nat.add_assoc, Nat.add_comm 1]
      exact h (i + 1) b hItem
    rw [List.length_cons, List.range'_succ, List.mapM_cons, hFirst, hRest]
    rfl

theorem length_flatMap {layout : α → List UInt8} {stride : Nat} (h : ∀ a, (layout a).length = stride)
    (items : List α) : (items.flatMap layout).length = items.length * stride := by
  induction items with
  | nil => simp
  | cons a items ih =>
    rw [List.flatMap_cons, List.length_append, h, ih, List.length_cons, Nat.succ_mul, Nat.add_comm]

/-- What reads one record wherever it lies reads an array of them. -/
theorem getRecords_flatMap {layout : α → List UInt8} {read : List UInt8 → Nat → Option β} {view : α → β}
    {stride : Nat} {items : List α} (hLength : ∀ a, (layout a).length = stride)
    (hRead : ∀ a ∈ items, ∀ front rest, read (front ++ (layout a ++ rest)) front.length = some (view a)) :
    getRecords read (items.flatMap layout) stride items.length = some (items.map view) := by
  rw [getRecords, List.range_eq_range']
  apply mapM_range'
  intro i a hItem
  obtain ⟨hLess, rfl⟩ := List.getElem?_eq_some_iff.mp hItem
  have hSplit : items = items.take i ++ (items[i] :: items.drop (i + 1)) := by
    rw [List.getElem_cons_drop, List.take_append_drop]
  have hBase : ((items.take i).flatMap layout).length = (0 + i) * stride := by
    rw [length_flatMap hLength, List.length_take, Nat.min_eq_left (Nat.le_of_lt hLess), Nat.zero_add]
  have hData : items.flatMap layout =
      (items.take i).flatMap layout ++ (layout items[i] ++ (items.drop (i + 1)).flatMap layout) := by
    conv_lhs => rw [hSplit]
    rw [List.flatMap_append, List.flatMap_cons]
  rw [← hBase, hData]
  exact hRead _ (List.getElem_mem hLess) _ _

end Library.Packed
