import Mathlib.Data.List.TakeWhile

/-! # Decimal numerals over bytes

Numerals are written with the digits `0` to `9` and no sign. Reading takes the
longest run of digits, so a numeral is recovered whatever non-digit follows it.
-/

namespace Library.Decimal

def isDigit (b : UInt8) : Bool := 48 ≤ b && b ≤ 57

def numeral (n : Nat) : List UInt8 := (Nat.toDigits 10 n).map fun c => c.toNat.toUInt8

def value (digits : List UInt8) : Nat := digits.foldl (fun v b => 10 * v + (b.toNat - 48)) 0

/-- The value of the digits at the front of a text, zero if there are none. -/
def read (text : List UInt8) : Nat := value (text.takeWhile isDigit)

theorem digit_bounds {n : Nat} {c : Char} (h : c ∈ Nat.toDigits 10 n) :
    48 ≤ c.toNat ∧ c.toNat ≤ 57 := by
  have hc := Nat.isDigit_of_mem_toDigits (by decide) (by decide) h
  simp only [Char.isDigit, Bool.and_eq_true, decide_eq_true_eq, ge_iff_le] at hc
  exact ⟨hc.1, hc.2⟩

theorem isDigit_of_mem_numeral {n : Nat} {b : UInt8} (h : b ∈ numeral n) : isDigit b = true := by
  obtain ⟨c, hc, rfl⟩ := List.mem_map.mp h
  obtain ⟨hLow, hHigh⟩ := digit_bounds hc
  have hToNat : c.toNat.toUInt8.toNat = c.toNat := by
    rw [Nat.toUInt8, UInt8.toNat_ofNat']
    omega
  simp only [isDigit, Bool.and_eq_true, decide_eq_true_eq, UInt8.le_iff_toNat_le, hToNat]
  exact ⟨hLow, hHigh⟩

theorem value_numeral (n : Nat) : value (numeral n) = n := by
  have hFold : ∀ (cs : List Char) (v : Nat), (∀ c ∈ cs, c.toNat ≤ 57) →
      (cs.map fun c => c.toNat.toUInt8).foldl (fun v b => 10 * v + (b.toNat - 48)) v =
        Nat.ofDigitChars 10 cs v := by
    intro cs
    induction cs with
    | nil => intro v _; rw [Nat.ofDigitChars_nil]; rfl
    | cons c cs ih =>
      intro v h
      have hc := h c List.mem_cons_self
      have hToNat : c.toNat.toUInt8.toNat = c.toNat := by
        rw [Nat.toUInt8, UInt8.toNat_ofNat']
        omega
      rw [List.map_cons, List.foldl_cons, ih _ (fun d hd => h d (List.mem_cons_of_mem _ hd)),
        Nat.ofDigitChars_cons, hToNat]
      rfl
  rw [value, numeral, hFold _ 0 (fun c hc => (digit_bounds hc).2), Nat.ofDigitChars_ten_toDigits]

theorem takeWhile_numeral (n : Nat) {rest : List UInt8}
    (h : ∀ b ∈ rest.head?, isDigit b = false) :
    (numeral n ++ rest).takeWhile isDigit = numeral n := by
  rw [List.takeWhile_append_of_pos (fun b hb => isDigit_of_mem_numeral hb)]
  cases rest with
  | nil => simp
  | cons b rest => simp [h b rfl]

theorem read_numeral (n : Nat) {rest : List UInt8} (h : ∀ b ∈ rest.head?, isDigit b = false) :
    read (numeral n ++ rest) = n := by
  rw [read, takeWhile_numeral n h, value_numeral]

theorem not_mem_numeral (n : Nat) {b : UInt8} (h : isDigit b = false) : b ∉ numeral n := by
  intro hb
  rw [isDigit_of_mem_numeral hb] at h
  cases h

theorem numeral_cons (n : Nat) : ∃ b digits, numeral n = b :: digits ∧ isDigit b = true := by
  have hNe : numeral n ≠ [] := by
    rw [numeral, Ne, List.map_eq_nil_iff]
    exact Nat.toDigits_ne_nil
  obtain ⟨b, digits, hNumeral⟩ := List.exists_cons_of_ne_nil hNe
  exact ⟨b, digits, hNumeral, isDigit_of_mem_numeral (hNumeral ▸ List.mem_cons_self)⟩

/-- No digit is taken for what is skipped in front of a numeral. -/
theorem dropWhile_numeral {p : UInt8 → Bool} (h : ∀ b, isDigit b = true → p b = false) (n : Nat)
    (rest : List UInt8) : (numeral n ++ rest).dropWhile p = numeral n ++ rest := by
  obtain ⟨b, digits, hNumeral, hDigit⟩ := numeral_cons n
  rw [hNumeral, List.cons_append, List.dropWhile_cons_of_neg]
  rw [h b hDigit]
  exact Bool.false_ne_true

theorem length_numeral_mono {a b : Nat} (h : a ≤ b) : (numeral a).length ≤ (numeral b).length := by
  have hPos : 0 < (Nat.toDigits 10 b).length := Nat.length_toDigits_pos
  have hb : b < 10 ^ (Nat.toDigits 10 b).length :=
    (Nat.length_toDigits_le_iff (by decide) hPos).mp (Nat.le_refl _)
  rw [numeral, numeral, List.length_map, List.length_map]
  exact (Nat.length_toDigits_le_iff (by decide) hPos).mpr (by omega)

end Library.Decimal
