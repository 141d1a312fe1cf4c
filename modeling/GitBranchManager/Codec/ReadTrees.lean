import GitBranchManager.Codec.ValidPayloads
import GitBranchManager.Library.Joined

/-! # What is written is read back

Over characters, the reader takes each tree from what is written for it, with its texts in UTF-16.
-/

namespace GitBranchManager

open Library Library.Json JsonWriter

namespace JsonTree

def utf16Text (text : List Char) : List UInt16 := text.flatMap Json.utf16

/-- The value that a reader gets for a tree. -/
def read (tree : JsonTree Char) : JsonValue (List UInt16) JsonNumber := tree.map utf16Text .int

theorem hexValue_kHex : ∀ d : Fin 16, hexValue (kHex d.val) = some d.val := by decide

/-- A control character is read from its number. -/
theorem parseText_unicode {a b : Nat} (ha : a < 16) (hb : b < 16) (cs : List Char) :
    parseText .plain ('\\' :: 'u' :: '0' :: '0' :: kHex a :: kHex b :: cs) =
      (parseText .plain cs).map fun (text, rest) => ((16 * a + b).toUInt16 :: text, rest) := by
  have hA : hexValue (kHex a) = some a := hexValue_kHex ⟨a, ha⟩
  have hB : hexValue (kHex b) = some b := hexValue_kHex ⟨b, hb⟩
  have hZero : hexValue '0' = some 0 := by decide
  have hEscape : parseText .plain ('\\' :: 'u' :: '0' :: '0' :: kHex a :: kHex b :: cs) =
      parseText (.hex 3 0) ('0' :: '0' :: kHex a :: kHex b :: cs) := by
    rw [parseText, if_neg (by decide), if_pos rfl, parseText, if_pos rfl]
  rw [hEscape]
  simp only [parseText, hZero, hA, hB, Option.bind_some]
  simp

theorem utf16_of_ascii {c : Char} (h : c.toNat < 128) : Json.utf16 c = [c.toNat.toUInt16] := by
  rw [Json.utf16, if_pos (by omega)]

/-- One character is read back from what is written for it. -/
theorem parseText_escapeChar (c : Char) (cs : List Char) :
    parseText .plain (escapeChar c ++ cs) =
      (parseText .plain cs).map fun (text, rest) => (Json.utf16 c ++ text, rest) := by
  rw [escapeChar]
  split
  next h => rw [h]; rfl
  next hQuote =>
    split
    next h => rw [h]; rfl
    next hBackslash =>
      split
      next h => rw [h]; rfl
      next =>
        split
        next h => rw [h]; rfl
        next =>
          split
          next h => rw [h]; rfl
          next =>
            split
            next hControl =>
              have hNumber : 16 * (c.toNat / 16) + c.toNat % 16 = c.toNat := by omega
              rw [utf16_of_ascii (by omega)]
              have hRead := parseText_unicode (show c.toNat / 16 < 16 by omega) (show c.toNat % 16 < 16 by omega) cs
              rw [hNumber] at hRead
              exact hRead
            next hControl =>
              rw [List.singleton_append, parseText, if_neg hQuote, if_neg hBackslash, if_neg hControl]

theorem parseText_quoted (text rest : List Char) :
    parseText .plain (text.flatMap escapeChar ++ '"' :: rest) = some (utf16Text text, rest) := by
  induction text with
  | nil => rfl
  | cons c text ih =>
    rw [List.flatMap_cons, List.append_assoc, parseText_escapeChar, ih]
    rfl

/-- What may stand behind a value: nothing that a number could go on with. -/
def Stops (rest : List Char) : Prop := ∀ c ∈ rest.head?, isDigit c = false ∧ c ≠ '.' ∧ c ≠ 'e' ∧ c ≠ 'E'

theorem isDigit_of_mem {n : Nat} {c : Char} (h : c ∈ Nat.toDigits 10 n) : Json.isDigit c = true := by
  have hDigit := Nat.isDigit_of_mem_toDigits (by decide) (by decide) h
  simp only [Char.isDigit, Bool.and_eq_true, decide_eq_true_eq, ge_iff_le] at hDigit
  simp only [Json.isDigit, Bool.and_eq_true, decide_eq_true_eq]
  exact hDigit

theorem head_toDigits {n : Nat} (h : 0 < n) : (Nat.toDigits 10 n).head? ≠ some '0' := by
  induction n using Nat.strongRecOn with
  | ind n ih =>
    rw [Nat.toDigits_eq_if (by decide)]
    split
    next hSmall =>
      have hDigit : ∀ d : Fin 10, 0 < d.val → [d.val.digitChar].head? ≠ some '0' := by decide
      exact hDigit ⟨n, hSmall⟩ h
    next hLarge =>
      have hFront := ih (n / 10) (by omega) (by omega)
      rwa [List.head?_append_of_ne_nil _ Nat.toDigits_ne_nil]

theorem parseDigits_toDigits (negative : Bool) (n : Nat) {rest : List Char} (hStops : Stops rest) :
    parseDigits negative (Nat.toDigits 10 n ++ rest) = some (integer negative (Nat.toDigits 10 n), rest) := by
  have hRest : rest.takeWhile Json.isDigit = [] ∧ rest.dropWhile Json.isDigit = rest := by
    cases rest with
    | nil => exact ⟨rfl, rfl⟩
    | cons c rest =>
      have hNot := (hStops c rfl).1
      exact ⟨by rw [List.takeWhile_cons, hNot]; rfl, by rw [List.dropWhile_cons, hNot]; rfl⟩
  have hTake : (Nat.toDigits 10 n ++ rest).takeWhile Json.isDigit = Nat.toDigits 10 n := by
    rw [List.takeWhile_append_of_pos fun c hc => isDigit_of_mem hc, hRest.1, List.append_nil]
  have hDrop : (Nat.toDigits 10 n ++ rest).dropWhile Json.isDigit = rest := by
    rw [List.dropWhile_append_of_pos fun c hc => isDigit_of_mem hc, hRest.2]
  have hLead : ¬ (Nat.toDigits 10 n = [] ∨ (Nat.toDigits 10 n).head? = some '0' ∧ (Nat.toDigits 10 n).length ≠ 1) := by
    rintro (hNil | ⟨hZero, hLong⟩)
    · exact Nat.toDigits_ne_nil hNil
    · cases n with
      | zero => exact hLong rfl
      | succ n => exact head_toDigits (Nat.succ_pos n) hZero
  have hFraction : parseFraction rest = some ([], rest) := by
    unfold parseFraction
    split
    next => exact absurd rfl (hStops '.' rfl).2.1
    next => rfl
  have hExponent : parseExponent rest = some ([], rest) := by
    cases rest with
    | nil => rfl
    | cons c rest =>
      obtain ⟨_, _, hSmall, hLarge⟩ := hStops c rfl
      rw [parseExponent, if_neg (not_or.mpr ⟨hSmall, hLarge⟩)]
  simp only [parseDigits, hTake, hDrop]
  rw [if_neg hLead, hFraction]
  simp [hExponent]

theorem integer_toInt {n : Int64} {negative : Bool} (hSign : negative = true ↔ n.toInt < 0) :
    integer negative (Nat.toDigits 10 n.toInt.natAbs) = .int n := by
  have hLow := Int64.minValue_le_toInt n
  have hHigh := Int64.toInt_le n
  have hValue : (if negative then -(n.toInt.natAbs : Int) else n.toInt.natAbs) = n.toInt := by
    cases negative with
    | false =>
      have hPositive : ¬ n.toInt < 0 := fun hLess => nomatch hSign.mpr hLess
      rw [if_neg Bool.false_ne_true]
      omega
    | true =>
      have hNegative := hSign.mp rfl
      rw [if_pos rfl]
      omega
  have hNotZero : ¬ (negative && n.toInt == 0) = true := by
    rw [Bool.and_eq_true, beq_iff_eq]
    rintro ⟨hNegative, hZero⟩
    have hLess := hSign.mp hNegative
    omega
  simp only [integer, Nat.ofDigitChars_ten_toDigits, hValue]
  rw [if_neg hNotZero, if_pos ⟨hLow, hHigh⟩, Int64.ofInt_toInt]

/-- An integer of 64 bits is read back. -/
theorem parseNumber_numeral (n : Int64) {rest : List Char} (hStops : Stops rest) :
    parseNumber (numeral n ++ rest) = some (.int n, rest) := by
  rw [numeral]
  split
  next hNegative =>
    rw [List.cons_append, parseNumber, parseDigits_toDigits true _ hStops, integer_toInt (by simpa using hNegative)]
  next hPositive =>
    have hSome : Nat.toDigits 10 n.toInt.natAbs ≠ [] := Nat.toDigits_ne_nil
    obtain ⟨c, digits, hDigits⟩ := List.exists_cons_of_ne_nil hSome
    have hDigit : Json.isDigit c = true := isDigit_of_mem (hDigits ▸ List.mem_cons_self)
    have hPlain : parseNumber (Nat.toDigits 10 n.toInt.natAbs ++ rest) =
        parseDigits false (Nat.toDigits 10 n.toInt.natAbs ++ rest) := by
      unfold parseNumber
      split
      next cs hMinus =>
        rw [hDigits, List.cons_append] at hMinus
        rw [(List.cons.inj hMinus).1] at hDigit
        cases hDigit
      next => rfl
    rw [hPlain, parseDigits_toDigits false _ hStops, integer_toInt (by simpa using hPositive)]

/-- Nothing is skipped before a value, and a value is not taken for a bracket. -/
structure Begins (text : List Char) : Prop where
  head : ∃ c cs, text = c :: cs ∧ isSpace c = false ∧ c ≠ ']' ∧ c ≠ '}'

theorem Begins.skip_append {text : List Char} (h : Begins text) (rest : List Char) :
    skip (text ++ rest) = text ++ rest := by
  obtain ⟨c, cs, rfl, hSpace, _⟩ := h.head
  rw [skip, List.cons_append, List.dropWhile_cons, hSpace]
  rfl

/-- A numeral starts with its sign or a digit. -/
theorem exists_numeral (n : Int64) : ∃ c cs, numeral n = c :: cs ∧ ∀ d, Json.isDigit d = false → d ≠ '-' → c ≠ d := by
  rw [numeral]
  split
  · exact ⟨'-', _, rfl, fun d _ hMinus => Ne.symm hMinus⟩
  · obtain ⟨c, cs, hDigits⟩ := List.exists_cons_of_ne_nil (Nat.toDigits_ne_nil : Nat.toDigits 10 n.toInt.natAbs ≠ [])
    refine ⟨c, cs, hDigits, ?_⟩
    rintro d hNot _ rfl
    have hDigit : Json.isDigit c = true := isDigit_of_mem (hDigits ▸ List.mem_cons_self)
    rw [hDigit] at hNot
    cases hNot

theorem begins_chars (tree : JsonTree Char) : Begins tree.chars := by
  cases tree with
  | null => exact ⟨'n', _, rfl, by decide, by decide, by decide⟩
  | bool value =>
    cases value with
    | false => exact ⟨'f', _, rfl, by decide, by decide, by decide⟩
    | true => exact ⟨'t', _, rfl, by decide, by decide, by decide⟩
  | number value =>
    obtain ⟨c, cs, hNumeral, hNe⟩ := exists_numeral value
    refine ⟨c, cs, ?_, ?_, hNe _ (by decide) (by decide), hNe _ (by decide) (by decide)⟩
    · rw [chars, write, word, List.map_id, hNumeral]
    · simp [isSpace, hNe ' ' (by decide) (by decide), hNe '\t' (by decide) (by decide),
        hNe '\n' (by decide) (by decide), hNe '\r' (by decide) (by decide)]
  | text value => exact ⟨'"', _, rfl, by decide, by decide, by decide⟩
  | array items => exact ⟨'[', _, rfl, by decide, by decide, by decide⟩
  | object fields => exact ⟨'{', _, rfl, by decide, by decide, by decide⟩

theorem skip_cons {c : Char} (h : isSpace c = false) (cs : List Char) : skip (c :: cs) = c :: cs := by
  rw [skip, List.dropWhile_cons, h]
  rfl

section Elements

variable {α β : Type} {element : List Char → Option (α × List Char)} {close : Char} {print : β → List Char}
  {value : β → α}

/-- Items between commas are read back, where each is read back before a comma or the bracket. -/
theorem parseElements_join (hClose : isSpace close = false) (hComma : close ≠ ',') {items : List β}
    (hRead : ∀ item ∈ items, ∀ c rest, c = ',' ∨ c = close →
      element (print item ++ c :: rest) = some (value item, c :: rest))
    (hSome : items ≠ []) {fuel : Nat} (hFuel : items.length ≤ fuel) (rest : List Char) :
    parseElements element close fuel ([','].intercalate (items.map print) ++ close :: rest) =
      some (items.map value, rest) := by
  induction items generalizing fuel with
  | nil => exact absurd rfl hSome
  | cons item items ih =>
    obtain ⟨hItem, hItems⟩ := List.forall_mem_cons.mp hRead
    cases fuel with
    | zero => cases hFuel
    | succ fuel =>
      cases items with
      | nil =>
        have hOne := hItem close rest (.inr rfl)
        rw [List.map_cons, List.map_nil, List.intercalate_singleton]
        simp [parseElements, hOne, skip_cons hClose, hComma]
      | cons next items =>
        have hMore := ih hItems (List.cons_ne_nil _ _) (Nat.le_of_succ_le_succ hFuel)
        have hOne := hItem ',' ([','].intercalate ((next :: items).map print) ++ close :: rest) (.inl rfl)
        rw [List.map_cons, Joined.join_cons _ (by simp), List.append_assoc, List.cons_append]
        rw [parseElements, hOne]
        simp only [Option.bind_eq_bind, Option.bind_some, skip_cons (show isSpace ',' = false by decide), if_true,
          hMore]
        rfl

theorem parseList_join (hClose : isSpace close = false) (hComma : close ≠ ',') {items : List β}
    (hRead : ∀ item ∈ items, ∀ c rest, c = ',' ∨ c = close →
      element (print item ++ c :: rest) = some (value item, c :: rest))
    (hBegins : ∀ item ∈ items, ∃ c cs, print item = c :: cs ∧ isSpace c = false ∧ c ≠ close) {fuel : Nat}
    (hFuel : items.length ≤ fuel) (rest : List Char) :
    parseList element close fuel ([','].intercalate (items.map print) ++ close :: rest) =
      some (items.map value, rest) := by
  cases items with
  | nil =>
    simp [parseList, List.intercalate, skip_cons hClose]
  | cons item items =>
    have hElements := parseElements_join hClose hComma hRead (List.cons_ne_nil _ _) hFuel rest
    obtain ⟨c, cs, hPrint, hSpace, hOther⟩ := hBegins item List.mem_cons_self
    obtain ⟨more, hText⟩ : ∃ more, [','].intercalate ((item :: items).map print) ++ close :: rest = c :: more := by
      cases items with
      | nil =>
        rw [List.map_cons, List.map_nil, List.intercalate_singleton, hPrint]
        exact ⟨_, rfl⟩
      | cons next items =>
        rw [List.map_cons, Joined.join_cons _ (by simp), hPrint]
        exact ⟨_, rfl⟩
    rw [hText] at hElements ⊢
    rw [parseList, skip_cons hSpace]
    simp only [hOther, if_false, hElements]

end Elements

theorem writeItems_eq (items : List (JsonTree Char)) :
    writeItems id escapeChar items = [','].intercalate (items.map chars) := by
  induction items with
  | nil => rfl
  | cons item items ih =>
    cases items with
    | nil => rw [writeItems, List.map_cons, List.map_nil, List.intercalate_singleton]; rfl
    | cons next items => rw [writeItems, ih, List.map_cons (a := item), Joined.join_cons _ (by simp)]; rfl

def printField (field : List Char × JsonTree Char) : List Char :=
  quoted id escapeChar field.1 ++ ':' :: chars field.2

theorem writeFields_eq (fields : List (List Char × JsonTree Char)) :
    writeFields id escapeChar fields = [','].intercalate (fields.map printField) := by
  induction fields with
  | nil => rfl
  | cons field fields ih =>
    cases fields with
    | nil => rw [writeFields, List.map_cons, List.map_nil, List.intercalate_singleton]; rfl
    | cons next fields =>
      rw [writeFields, ih, List.map_cons (a := field), Joined.join_cons _ (by simp), printField]
      simp [chars]

def ReadsBack (tree : JsonTree Char) : Prop :=
  ∀ fuel rest, tree.chars.length ≤ fuel → Stops rest → parseValue fuel (tree.chars ++ rest) = some (tree.read, rest)

theorem stops_cons {c : Char} (h : Json.isDigit c = false ∧ c ≠ '.' ∧ c ≠ 'e' ∧ c ≠ 'E') (rest : List Char) :
    Stops (c :: rest) := by
  intro d hd
  cases hd
  exact h

theorem chars_ne_nil (tree : JsonTree Char) : tree.chars ≠ [] := by
  obtain ⟨c, cs, hChars, _⟩ := (begins_chars tree).head
  rw [hChars]
  exact List.cons_ne_nil c cs

/-- The items of an array are read back where each of them is. -/
theorem parseList_items {items : List (JsonTree Char)} (h : ∀ item ∈ items, ReadsBack item) {fuel : Nat}
    (hFuel : (writeItems id escapeChar items).length ≤ fuel) (rest : List Char) :
    parseList (parseValue fuel) ']' fuel (writeItems id escapeChar items ++ ']' :: rest) =
      some (items.map read, rest) := by
  rw [writeItems_eq] at hFuel ⊢
  refine parseList_join (by decide) (by decide) ?_ ?_ ?_ rest
  · intro item hItem c rest hc
    have hLength : item.chars.length ≤ ([','].intercalate (items.map chars)).length :=
      Joined.length_le_of_mem (List.mem_map_of_mem hItem)
    refine h item hItem fuel _ (hLength.trans hFuel) (stops_cons ?_ rest)
    obtain rfl | rfl := hc
    · decide
    · decide
  · intro item _
    obtain ⟨c, cs, hChars, hSpace, hBracket, _⟩ := (begins_chars item).head
    exact ⟨c, cs, hChars, hSpace, hBracket⟩
  · have hCount : (items.map chars).length ≤ ([','].intercalate (items.map chars)).length :=
      Joined.count_le_length (List.forall_mem_map.mpr fun item _ => chars_ne_nil item)
    rw [List.length_map] at hCount
    exact hCount.trans hFuel

theorem parseField_print {name : List Char} {value : JsonTree Char} (h : ReadsBack value) {fuel : Nat}
    (hFuel : value.chars.length ≤ fuel) {rest : List Char} (hStops : Stops rest) :
    parseField (parseValue fuel) (printField (name, value) ++ rest) = some ((utf16Text name, value.read), rest) := by
  have hValue := h fuel rest hFuel hStops
  have hName := parseText_quoted name (':' :: (value.chars ++ rest))
  have hText : printField (name, value) ++ rest =
      '"' :: (name.flatMap escapeChar ++ '"' :: ':' :: (value.chars ++ rest)) := by
    rw [printField, quoted]
    simp
  rw [hText, parseField, skip_cons (by decide)]
  simp only [hName, Option.bind_eq_bind, Option.bind_some, skip_cons (show isSpace ':' = false by decide), hValue]
  rfl

theorem parseList_fields {fields : List (List Char × JsonTree Char)} (h : ∀ field ∈ fields, ReadsBack field.2)
    {fuel : Nat} (hFuel : (writeFields id escapeChar fields).length ≤ fuel) (rest : List Char) :
    parseList (parseField (parseValue fuel)) '}' fuel (writeFields id escapeChar fields ++ '}' :: rest) =
      some (fields.map fun field => (utf16Text field.1, field.2.read), rest) := by
  rw [writeFields_eq] at hFuel ⊢
  refine parseList_join (by decide) (by decide) ?_ ?_ ?_ rest
  · rintro ⟨name, value⟩ hField c rest hc
    have hLength : (printField (name, value)).length ≤ ([','].intercalate (fields.map printField)).length :=
      Joined.length_le_of_mem (List.mem_map_of_mem hField)
    have hValue : value.chars.length ≤ (printField (name, value)).length := by
      change _ ≤ (quoted id escapeChar name ++ ':' :: value.chars).length
      rw [List.length_append, List.length_cons]
      omega
    refine parseField_print (h _ hField) ((hValue.trans hLength).trans hFuel) (stops_cons ?_ rest)
    obtain rfl | rfl := hc
    · decide
    · decide
  · rintro ⟨name, value⟩ _
    exact ⟨'"', _, rfl, by decide, by decide⟩
  · have hCount : (fields.map printField).length ≤ ([','].intercalate (fields.map printField)).length :=
      Joined.count_le_length (List.forall_mem_map.mpr fun field _ => List.cons_ne_nil _ _)
    rw [List.length_map] at hCount
    exact hCount.trans hFuel

theorem chars_array (items : List (JsonTree Char)) (rest : List Char) :
    chars (.array items) ++ rest = '[' :: (writeItems id escapeChar items ++ ']' :: rest) := by
  rw [chars, write]
  simp

theorem chars_object (fields : List (List Char × JsonTree Char)) (rest : List Char) :
    chars (.object fields) ++ rest = '{' :: (writeFields id escapeChar fields ++ '}' :: rest) := by
  rw [chars, write]
  simp

/-- There are steps left for a value, and each of its parts is shorter. -/
theorem readsBack_of_succ {tree : JsonTree Char}
    (h : ∀ fuel rest, tree.chars.length ≤ fuel + 1 → Stops rest →
      parseValue (fuel + 1) (tree.chars ++ rest) = some (tree.read, rest)) : ReadsBack tree := by
  intro fuel rest hFuel hStops
  cases fuel with
  | zero => exact absurd (List.length_eq_zero_iff.mp (Nat.le_zero.mp hFuel)) (chars_ne_nil tree)
  | succ fuel => exact h fuel rest hFuel hStops

theorem readsBack (tree : JsonTree Char) : ReadsBack tree := by
  induction tree using JsonValue.induct with
  | null => exact readsBack_of_succ fun fuel rest _ _ => rfl
  | bool value =>
    cases value with
    | false => exact readsBack_of_succ fun fuel rest _ _ => rfl
    | true => exact readsBack_of_succ fun fuel rest _ _ => rfl
  | number value =>
    refine readsBack_of_succ fun fuel rest _ hStops => ?_
    have hNumber := parseNumber_numeral value hStops
    obtain ⟨c, cs, hNumeral, hNe⟩ := exists_numeral value
    have hChars : chars (.number value) ++ rest = numeral value ++ rest := by rw [chars, write, word, List.map_id]
    have hSkip := (begins_chars (.number value)).skip_append rest
    rw [hChars, hNumeral, List.cons_append] at hSkip
    rw [hNumeral, List.cons_append] at hNumber
    rw [hChars, hNumeral, List.cons_append, parseValue, hSkip]
    simp only [hNe '"' (by decide) (by decide), hNe '[' (by decide) (by decide), hNe '{' (by decide) (by decide),
      hNe 'n' (by decide) (by decide), hNe 't' (by decide) (by decide), hNe 'f' (by decide) (by decide), if_false,
      hNumber]
    rfl
  | text value =>
    refine readsBack_of_succ fun fuel rest _ _ => ?_
    have hChars : chars (.text value) ++ rest = '"' :: (value.flatMap escapeChar ++ '"' :: rest) := by
      rw [chars, write, quoted]
      simp
    rw [hChars, parseValue, skip_cons (by decide)]
    simp only [if_true, parseText_quoted]
    rfl
  | array items ih =>
    refine readsBack_of_succ fun fuel rest hFuel _ => ?_
    have hLength : (writeItems id escapeChar items).length ≤ fuel := by
      rw [chars, write] at hFuel
      simp only [List.length_cons, List.length_append] at hFuel
      omega
    have hRead : read (.array items) = .array (items.map read) := by
      rw [read, JsonValue.map, JsonValue.mapItems_eq]
      rfl
    rw [chars_array, parseValue, skip_cons (by decide), hRead]
    simp only [parseList_items ih hLength, show ('[' = '"') = False by simp, if_false, if_true]
    rfl
  | object fields ih =>
    refine readsBack_of_succ fun fuel rest hFuel _ => ?_
    have hLength : (writeFields id escapeChar fields).length ≤ fuel := by
      rw [chars, write] at hFuel
      simp only [List.length_cons, List.length_append] at hFuel
      omega
    have hRead : read (.object fields) = .object (fields.map fun field => (utf16Text field.1, read field.2)) := by
      rw [read, JsonValue.map, JsonValue.mapFields_eq]; rfl
    rw [chars_object, parseValue, skip_cons (by decide), hRead]
    simp only [parseList_fields ih hLength, show ('{' = '"') = False by simp, show ('{' = '[') = False by simp,
      if_false,
      if_true]
    rfl

/-- A payload is read back as it was written. -/
theorem parse_chars (tree : JsonTree Char) : Json.parse tree.chars = some tree.read := by
  have hRead := readsBack tree (tree.chars.length + 1) [] (Nat.le_succ _) (fun c hc => by cases hc)
  rw [List.append_nil] at hRead
  rw [Json.parse, hRead]
  rfl

end JsonTree

end GitBranchManager
