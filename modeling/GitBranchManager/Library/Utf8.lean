import Mathlib.Data.List.Basic

/-! # UTF-8

A text is encoded character by character, and only encodings are decoded. A byte below 128 stands
for itself and cuts an encoding in two.
-/

namespace Library.Utf8

def encode (text : List Char) : List UInt8 := text.flatMap String.utf8EncodeChar

/-- The strict decoding: no overlong forms, no surrogates, nothing cut off. -/
def decode (bytes : List UInt8) : Option (List Char) := bytes.toByteArray.utf8Decode?.map Array.toList

def Valid (bytes : List UInt8) : Prop := ∃ text, encode text = bytes

theorem encode_append (text more : List Char) : encode (text ++ more) = encode text ++ encode more :=
  List.flatMap_append

theorem decode_encode (text : List Char) : decode (encode text) = some text := by
  have hEncode : (encode text).toByteArray = text.utf8Encode := rfl
  rw [decode, hEncode, List.utf8Decode?_utf8Encode]
  rfl

theorem decode_eq_some {bytes : List UInt8} {text : List Char} : decode bytes = some text ↔ encode text = bytes := by
  constructor
  · intro hDecode
    obtain ⟨array, hArray, rfl⟩ := Option.map_eq_some_iff.mp hDecode
    have hSome : bytes.toByteArray.utf8Decode?.isSome := by rw [hArray]; rfl
    obtain ⟨other, hOther⟩ := ByteArray.isSome_utf8Decode?_iff.mp hSome
    rw [hOther, List.utf8Decode?_utf8Encode] at hArray
    cases hArray
    exact (List.toByteArray_inj.mp hOther).symm
  · rintro rfl
    exact decode_encode text

theorem isSome_decode {bytes : List UInt8} : (decode bytes).isSome ↔ Valid bytes := by
  rw [Option.isSome_iff_exists]
  exact exists_congr fun text => decode_eq_some

theorem encodeChar_of_ascii {c : Char} (h : c.toNat < 128) : String.utf8EncodeChar c = [c.toNat.toUInt8] := by
  have hLow : c.val.toNat ≤ 127 := Nat.le_of_lt_succ h
  simp only [String.utf8EncodeChar]
  rw [if_pos hLow]
  rfl

theorem encodeChar_of_not_ascii {c : Char} (h : 128 ≤ c.toNat) : ∀ b ∈ String.utf8EncodeChar c, 128 ≤ b.toNat := by
  have hHigh : ¬ c.val.toNat ≤ 127 := Nat.not_le.mpr h
  intro b hb
  simp only [String.utf8EncodeChar] at hb
  rw [if_neg hHigh] at hb
  split at hb
  · simp only [List.mem_cons, List.not_mem_nil, or_false] at hb
    obtain rfl | rfl := hb
    · rw [UInt8.toNat_ofNat']; omega
    · rw [UInt8.toNat_ofNat']; omega
  · split at hb
    · simp only [List.mem_cons, List.not_mem_nil, or_false] at hb
      obtain rfl | rfl | rfl := hb
      · rw [UInt8.toNat_ofNat']; omega
      · rw [UInt8.toNat_ofNat']; omega
      · rw [UInt8.toNat_ofNat']; omega
    · simp only [List.mem_cons, List.not_mem_nil, or_false] at hb
      obtain rfl | rfl | rfl | rfl := hb
      · rw [UInt8.toNat_ofNat']; omega
      · rw [UInt8.toNat_ofNat']; omega
      · rw [UInt8.toNat_ofNat']; omega
      · rw [UInt8.toNat_ofNat']; omega

theorem ascii_of_mem {c : Char} {b : UInt8} (hb : b ∈ String.utf8EncodeChar c) (hAscii : b.toNat < 128) :
    String.utf8EncodeChar c = [b] := by
  by_cases hc : c.toNat < 128
  · rw [encodeChar_of_ascii hc] at hb ⊢
    rw [List.mem_singleton.mp hb]
  · have hHigh := encodeChar_of_not_ascii (Nat.not_lt.mp hc) b hb
    omega

/-- A byte below 128 is a character of its own. -/
theorem split_at_ascii {b : UInt8} (hb : b.toNat < 128) {text : List Char} {front back : List UInt8}
    (h : encode text = front ++ b :: back) :
    ∃ before c after, text = before ++ c :: after ∧ encode before = front ∧ String.utf8EncodeChar c = [b] ∧
      encode after = back := by
  induction text generalizing front with
  | nil => exact absurd h.symm (List.append_ne_nil_of_right_ne_nil _ (List.cons_ne_nil _ _))
  | cons c text ih =>
    rw [encode, List.flatMap_cons] at h
    obtain ⟨rest, hFront, hRest⟩ | ⟨rest, hChar, hBack⟩ := List.append_eq_append_iff.mp h
    · obtain ⟨before, d, after, rfl, hBefore, hd, hAfter⟩ := ih hRest
      refine ⟨c :: before, d, after, rfl, ?_, hd, hAfter⟩
      rw [encode, List.flatMap_cons, hFront]
      exact congrArg (String.utf8EncodeChar c ++ ·) hBefore
    · cases rest with
      | nil =>
        obtain ⟨before, d, after, rfl, hBefore, hd, hAfter⟩ :=
          ih (show encode text = [] ++ b :: back from hBack.symm)
        refine ⟨c :: before, d, after, rfl, ?_, hd, hAfter⟩
        rw [List.append_nil] at hChar
        rw [encode, List.flatMap_cons, hChar]
        exact (congrArg (front ++ ·) hBefore).trans (List.append_nil front)
      | cons first rest =>
        obtain ⟨rfl, rfl⟩ := List.cons.inj hBack
        have hAlone : String.utf8EncodeChar c = [b] :=
          ascii_of_mem (hChar ▸ List.mem_append_right _ List.mem_cons_self) hb
        obtain ⟨rfl, hRest⟩ := List.append_eq_singleton_iff.mp (hChar.symm.trans hAlone) |>.resolve_right (by simp)
        obtain rfl := (List.cons.inj hRest).2
        exact ⟨[], c, text, rfl, rfl, hAlone, rfl⟩

/-- The character that a byte below 128 stands for. -/
def asciiChar (b : UInt8) : Char := Char.ofNat b.toNat

theorem toNat_asciiChar {b : UInt8} (hb : b.toNat < 128) : (asciiChar b).toNat = b.toNat := by
  have hValid : b.toNat.isValidChar := .inl (by omega)
  rw [asciiChar, Char.ofNat, dif_pos hValid]
  rfl

theorem encodeChar_asciiChar {b : UInt8} (hb : b.toNat < 128) : String.utf8EncodeChar (asciiChar b) = [b] := by
  have hNat := toNat_asciiChar hb
  rw [encodeChar_of_ascii (hNat ▸ hb), hNat, Nat.toUInt8, UInt8.ofNat_toNat]

theorem valid_split {b : UInt8} (hb : b.toNat < 128) {front back : List UInt8} :
    Valid (front ++ b :: back) ↔ Valid front ∧ Valid back := by
  constructor
  · rintro ⟨text, hText⟩
    obtain ⟨before, c, after, _, hBefore, _, hAfter⟩ := split_at_ascii hb hText
    exact ⟨⟨before, hBefore⟩, ⟨after, hAfter⟩⟩
  · rintro ⟨⟨before, rfl⟩, ⟨after, rfl⟩⟩
    refine ⟨before ++ asciiChar b :: after, ?_⟩
    rw [encode_append, encode, encode, encode, List.flatMap_cons, encodeChar_asciiChar hb]
    rfl

end Library.Utf8
