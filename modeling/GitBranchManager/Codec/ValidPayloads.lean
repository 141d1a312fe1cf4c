import GitBranchManager.Codec.WrittenTrees

/-! # When a payload is valid UTF-8

The writer adds only bytes below 128, each of which is a character of its own. So a payload is valid
exactly when the texts in it are, and then it is the encoding of what is written over characters.
-/

namespace GitBranchManager

open Library Library.Json Library.Utf8 JsonWriter

namespace JsonTree

/-- What `escapeByte` does, over characters. -/
def escapeChar (c : Char) : List Char :=
  if c = '"' then ['\\', '"']
  else if c = '\\' then ['\\', '\\']
  else if c = '\n' then ['\\', 'n']
  else if c = '\r' then ['\\', 'r']
  else if c = '\t' then ['\\', 't']
  else if c.toNat < 0x20 then ['\\', 'u', '0', '0', kHex (c.toNat / 16), kHex (c.toNat % 16)]
  else [c]

def chars (tree : JsonTree Char) : List Char := tree.write id escapeChar

theorem escape_ascii (n : Fin 128) :
    encode (escapeChar (Char.ofNat n.val)) = escapeByte (UInt8.ofNat n.val) ∧
    escapeByte (UInt8.ofNat n.val) ≠ [] ∧ ∀ b ∈ escapeByte (UInt8.ofNat n.val), b.toNat < 128 := by
  have hEncode : ∀ n : Fin 128, encode (escapeChar (Char.ofNat n.val)) = escapeByte (UInt8.ofNat n.val) ∧
      escapeByte (UInt8.ofNat n.val) ≠ [] := by decide +kernel
  have hAscii : ∀ n : Fin 128, (escapeByte (UInt8.ofNat n.val)).all (fun b => decide (b.toNat < 128)) = true := by
    decide +kernel
  refine ⟨(hEncode n).1, (hEncode n).2, fun b hMem => ?_⟩
  exact of_decide_eq_true (List.all_eq_true.mp (hAscii n) b hMem)

theorem escapeByte_of_not_ascii {b : UInt8} (h : 128 ≤ b.toNat) : escapeByte b = [b] := by
  have hNe (n : UInt8) (hn : n.toNat < 128) : b ≠ n := by
    rintro rfl
    omega
  rw [escapeByte, if_neg (hNe 34 (by decide)), if_neg (hNe 92 (by decide)), if_neg (hNe LF (by decide)),
    if_neg (hNe CR (by decide)), if_neg (hNe 9 (by decide)), if_neg]
  rw [UInt8.lt_iff_toNat_lt]
  have hLimit : (0x20 : UInt8).toNat = 32 := rfl
  omega

theorem escapeByte_of_ascii {b : UInt8} (h : b.toNat < 128) :
    ∃ first rest, escapeByte b = first :: rest ∧ ∀ c ∈ first :: rest, c.toNat < 128 := by
  obtain ⟨_, hSome, hAscii⟩ := escape_ascii ⟨b.toNat, h⟩
  rw [UInt8.ofNat_toNat] at hSome hAscii
  obtain ⟨first, rest, hCons⟩ := List.exists_cons_of_ne_nil hSome
  exact ⟨first, rest, hCons, hCons ▸ hAscii⟩

theorem valid_nil : Valid [] := ⟨[], rfl⟩

theorem valid_ascii_append {front back : Bytes} (h : ∀ b ∈ front, b.toNat < 128) :
    Valid (front ++ back) ↔ Valid back := by
  induction front with
  | nil => rw [List.nil_append]
  | cons b front ih =>
    obtain ⟨hb, hFront⟩ := List.forall_mem_cons.mp h
    have hSplit : Valid ([] ++ b :: (front ++ back)) ↔ _ := valid_split hb
    rw [List.nil_append] at hSplit
    rw [List.cons_append, hSplit, ih hFront, and_iff_right valid_nil]

/-- Escaping keeps what is valid and what is not. -/
theorem valid_escaped (front text : Bytes) : Valid (front ++ text.flatMap escapeByte) ↔ Valid (front ++ text) := by
  induction text generalizing front with
  | nil => rfl
  | cons b text ih =>
    rw [List.flatMap_cons]
    by_cases hb : b.toNat < 128
    · obtain ⟨first, rest, hEscape, hAscii⟩ := escapeByte_of_ascii hb
      obtain ⟨hFirst, hRest⟩ := List.forall_mem_cons.mp hAscii
      have hTail := ih []
      rw [List.nil_append, List.nil_append] at hTail
      rw [hEscape, List.cons_append, valid_split hFirst, valid_ascii_append hRest, hTail, valid_split hb]
    · rw [escapeByte_of_not_ascii (Nat.not_lt.mp hb), ← List.append_assoc, ih, List.append_assoc]
      rfl

theorem valid_quoted (text rest : Bytes) :
    Valid (quoted byteSymbol escapeByte text ++ rest) ↔ Valid text ∧ Valid rest := by
  have hQuote : (byteSymbol '"').toNat < 128 := by decide
  have hEscaped := valid_escaped [] text
  rw [List.nil_append, List.nil_append] at hEscaped
  rw [quoted, List.cons_append, List.cons_append, List.append_assoc]
  have hFirst : Valid ([byteSymbol '"'] ++ (text.flatMap escapeByte ++ ([byteSymbol '"'] ++ rest))) ↔ _ :=
    valid_ascii_append (by simpa using hQuote)
  rw [List.singleton_append] at hFirst
  rw [hFirst, List.singleton_append, valid_split hQuote, hEscaped]

theorem toNat_byteSymbol {c : Char} (h : c.toNat < 128) : (byteSymbol c).toNat < 128 := by
  rw [byteSymbol, Nat.toUInt8, UInt8.toNat_ofNat']
  omega

theorem ascii_of_mem_numeral {n : Int64} : ∀ c ∈ numeral n, c.toNat < 128 := by
  have hDigits (m : Nat) : ∀ c ∈ Nat.toDigits 10 m, c.toNat < 128 := by
    intro c hc
    have hBounds := Library.Decimal.digit_bounds hc
    omega
  rw [numeral]
  split
  · exact List.forall_mem_cons.mpr ⟨by decide, hDigits _⟩
  · exact hDigits _

theorem valid_word {word : List Char} (h : ∀ c ∈ word, c.toNat < 128) (rest : Bytes) :
    Valid (JsonTree.word byteSymbol word ++ rest) ↔ Valid rest := by
  refine valid_ascii_append ?_
  rw [JsonTree.word, List.forall_mem_map]
  exact fun c hc => toNat_byteSymbol (h c hc)

theorem valid_symbol {c : Char} (h : c.toNat < 128) (rest : Bytes) : Valid (byteSymbol c :: rest) ↔ Valid rest := by
  have hWord : Valid (JsonTree.word byteSymbol [c] ++ rest) ↔ Valid rest := valid_word (by simpa using h) rest
  exact hWord

/-- Whether a tree's writing is valid is told by its texts. -/
def ToldByTexts (tree : JsonTree UInt8) : Prop :=
  ∀ rest, Valid (tree.bytes ++ rest) ↔ (∀ text ∈ tree.texts, Valid text) ∧ Valid rest

theorem valid_items {items : List (JsonTree UInt8)} (h : ∀ item ∈ items, ToldByTexts item) (rest : Bytes) :
    Valid (writeItems byteSymbol escapeByte items ++ rest) ↔
      (∀ text ∈ items.flatMap JsonValue.texts, Valid text) ∧ Valid rest := by
  induction items with
  | nil => simp [writeItems]
  | cons item items ih =>
    obtain ⟨hItem, hItems⟩ := List.forall_mem_cons.mp h
    rw [List.flatMap_cons, List.forall_mem_append, and_assoc, ← ih hItems]
    cases items with
    | nil =>
      rw [writeItems, writeItems, List.nil_append]
      exact hItem rest
    | cons next items =>
      rw [writeItems, List.append_assoc, List.cons_append]
      exact (hItem _).trans (and_congr_right' (valid_symbol (by decide) _))

theorem valid_fields {fields : List (Bytes × JsonTree UInt8)} (h : ∀ field ∈ fields, ToldByTexts field.2)
    (rest : Bytes) :
    Valid (writeFields byteSymbol escapeByte fields ++ rest) ↔
      (∀ text ∈ fields.flatMap fun field => field.1 :: field.2.texts, Valid text) ∧ Valid rest := by
  induction fields with
  | nil => simp [writeFields]
  | cons field fields ih =>
    obtain ⟨name, value⟩ := field
    obtain ⟨hValue, hFields⟩ := List.forall_mem_cons.mp h
    rw [List.flatMap_cons, List.forall_mem_append, List.forall_mem_cons, and_assoc, and_assoc, ← ih hFields]
    cases fields with
    | nil =>
      rw [writeFields, writeFields, List.nil_append, List.append_assoc, valid_quoted, List.cons_append,
        valid_symbol (by decide)]
      exact and_congr_right' (hValue rest)
    | cons next fields =>
      rw [writeFields, List.append_assoc, List.append_assoc, valid_quoted, List.cons_append, valid_symbol (by decide)]
      exact and_congr_right' ((hValue _).trans (and_congr_right' (valid_symbol (by decide) _)))

theorem toldByTexts (tree : JsonTree UInt8) : ToldByTexts tree := by
  induction tree using JsonValue.induct with
  | null =>
    intro rest
    rw [bytes, write, valid_word (by simp)]
    simp [JsonValue.texts]
  | bool value =>
    intro rest
    cases value with
    | false =>
      rw [bytes, write, if_neg Bool.false_ne_true, valid_word (by simp)]
      simp [JsonValue.texts]
    | true =>
      rw [bytes, write, if_pos rfl, valid_word (by simp)]
      simp [JsonValue.texts]
  | number value =>
    intro rest
    rw [bytes, write, valid_word ascii_of_mem_numeral]
    simp [JsonValue.texts]
  | text value =>
    intro rest
    rw [bytes, write, valid_quoted]
    simp [JsonValue.texts]
  | array items ih =>
    intro rest
    rw [bytes, write, List.cons_append, List.cons_append, List.append_assoc, valid_symbol (by decide), valid_items ih,
      List.singleton_append, valid_symbol (by decide), JsonValue.texts, JsonValue.textsOfItems_eq]
  | object fields ih =>
    intro rest
    rw [bytes, write, List.cons_append, List.cons_append, List.append_assoc, valid_symbol (by decide), valid_fields ih,
      List.singleton_append, valid_symbol (by decide), JsonValue.texts, JsonValue.textsOfFields_eq]

theorem valid_bytes (tree : JsonTree UInt8) : Valid tree.bytes ↔ ∀ text ∈ tree.texts, Valid text := by
  have hTold := toldByTexts tree []
  rw [List.append_nil] at hTold
  rw [hTold, and_iff_left valid_nil]

theorem encode_escapeChar (c : Char) : encode (escapeChar c) = (String.utf8EncodeChar c).flatMap escapeByte := by
  by_cases hc : c.toNat < 128
  · obtain ⟨hEncode, _⟩ := escape_ascii ⟨c.toNat, hc⟩
    rw [Char.ofNat_toNat] at hEncode
    rw [hEncode, encodeChar_of_ascii hc, List.flatMap_singleton]
  · have hHigh := Nat.not_lt.mp hc
    have hNe (d : Char) (hd : d.toNat < 128) : c ≠ d := by
      rintro rfl
      omega
    have hPlain : escapeChar c = [c] := by
      rw [escapeChar, if_neg (hNe _ (by decide)), if_neg (hNe _ (by decide)), if_neg (hNe _ (by decide)),
        if_neg (hNe _ (by decide)), if_neg (hNe _ (by decide)), if_neg (by omega)]
    have hBytes : (String.utf8EncodeChar c).all JsonCodec.isPlain = true := by
      refine List.all_eq_true.mpr fun b hb => beq_iff_eq.mpr ?_
      exact escapeByte_of_not_ascii (encodeChar_of_not_ascii hHigh b hb)
    rw [hPlain, encode, List.flatMap_singleton, JsonCodec.flatMap_escapeByte hBytes]

theorem encode_word {word : List Char} (h : ∀ c ∈ word, c.toNat < 128) :
    encode (JsonTree.word id word) = JsonTree.word byteSymbol word := by
  rw [JsonTree.word, JsonTree.word, List.map_id]
  induction word with
  | nil => rfl
  | cons c word ih =>
    obtain ⟨hc, hWord⟩ := List.forall_mem_cons.mp h
    rw [encode, List.flatMap_cons, encodeChar_of_ascii hc, List.map_cons]
    exact congrArg (byteSymbol c :: ·) (ih hWord)

theorem encode_symbol {c : Char} (h : c.toNat < 128) (text : List Char) :
    encode (c :: text) = byteSymbol c :: encode text := by
  rw [encode, List.flatMap_cons, encodeChar_of_ascii h]
  rfl

theorem encode_quoted (text : List Char) :
    encode (quoted id escapeChar text) = quoted byteSymbol escapeByte (encode text) := by
  have hText : encode (text.flatMap escapeChar) = (encode text).flatMap escapeByte := by
    rw [encode, encode, List.flatMap_assoc, List.flatMap_assoc]
    exact List.flatMap_congr fun c _ => encode_escapeChar c
  rw [quoted, id, List.cons_append, encode_symbol (by decide), encode_append, hText]
  rfl

theorem encode_items {items : List (JsonTree Char)}
    (h : ∀ item ∈ items, encode (write id escapeChar item) = write byteSymbol escapeByte (item.map encode id)) :
    encode (writeItems id escapeChar items) =
      writeItems byteSymbol escapeByte (items.map (JsonValue.map encode id)) := by
  induction items with
  | nil => rfl
  | cons item items ih =>
    obtain ⟨hItem, hItems⟩ := List.forall_mem_cons.mp h
    cases items with
    | nil => rw [List.map_cons, List.map_nil, writeItems, writeItems, hItem]
    | cons next items =>
      rw [List.map_cons, List.map_cons, writeItems, writeItems, encode_append, hItem, id, encode_symbol (by decide),
        ih hItems, List.map_cons]

theorem encode_fields {fields : List (List Char × JsonTree Char)}
    (h : ∀ field ∈ fields, encode (write id escapeChar field.2) = write byteSymbol escapeByte (field.2.map encode id)) :
    encode (writeFields id escapeChar fields) =
      writeFields byteSymbol escapeByte (fields.map fun field => (encode field.1, field.2.map encode id)) := by
  induction fields with
  | nil => rfl
  | cons field fields ih =>
    obtain ⟨name, value⟩ := field
    obtain ⟨hValue, hFields⟩ := List.forall_mem_cons.mp h
    cases fields with
    | nil =>
      rw [List.map_cons, List.map_nil, writeFields, writeFields, encode_append, encode_quoted, id,
        encode_symbol (by decide), hValue]
    | cons next fields =>
      rw [List.map_cons, List.map_cons, writeFields, writeFields, encode_append, encode_append, encode_quoted, id,
        encode_symbol (by decide), hValue, id, encode_symbol (by decide), ih hFields, List.map_cons]

/-- The bytes of a tree whose texts are valid encode what is written over characters. -/
theorem encode_chars (tree : JsonTree Char) : encode tree.chars = JsonTree.bytes (tree.map encode id) := by
  rw [chars, bytes]
  induction tree using JsonValue.induct with
  | null => exact encode_word (by simp)
  | bool value =>
    cases value with
    | false => exact encode_word (by simp)
    | true => exact encode_word (by simp)
  | number value => exact encode_word ascii_of_mem_numeral
  | text value => exact encode_quoted value
  | array items ih =>
    rw [JsonValue.map, JsonValue.mapItems_eq, write, write, id, List.cons_append, encode_symbol (by decide),
      encode_append,
      encode_items ih]
    rfl
  | object fields ih =>
    rw [JsonValue.map, JsonValue.mapFields_eq, write, write, id, List.cons_append, encode_symbol (by decide),
      encode_append, encode_fields ih]
    rfl

end JsonTree

end GitBranchManager
