import GitBranchManager.Base.Bytes
import GitBranchManager.Codec.ReadTrees

/-! # Payloads that can be read

The app decodes a payload as strict UTF-8 before it reads the JSON. What git wrote is passed on as it
is, so one text that is not UTF-8 makes the whole payload unreadable.
-/

namespace GitBranchManager

open Library Library.Json Library.Utf8 JsonWriter

/-- `utf8.decode`, which drops a byte-order mark. Nothing stands for the `FormatException`. -/
def utf8Decode (bytes : Bytes) : Option (List Char) :=
  decode (if startsWith bytes [0xEF, 0xBB, 0xBF] then bytes.drop 3 else bytes)

def decodeEventPayload (payload : Bytes) : Option (JsonValue Utf16 JsonNumber) :=
  if payload.isEmpty then some .null else (utf8Decode payload).bind Json.parse

def readLastResultJson (buffer : Bytes) : Option (List Char) :=
  if buffer.isEmpty then some [] else utf8Decode buffer

/-- The payload is accepted, and texts that are valid come back as they are. -/
def Readable (payload : Bytes) (tree : JsonTree UInt8) : Prop :=
  ∃ value, decodeEventPayload payload = some value ∧ (readLastResultJson payload).bind Json.parse = some value ∧
    ∀ text : JsonTree Char, tree = text.map encode id → value = text.read

namespace JsonTree

theorem not_ascii_of_bom {b : UInt8} (h : b.toNat < 128) (rest : Bytes) :
    startsWith (b :: rest) [0xEF, 0xBB, 0xBF] = false := by
  have hNe : ((0xEF : UInt8) == b) = false := by
    rw [beq_eq_false_iff_ne]
    rintro rfl
    exact absurd h (by decide)
  rw [startsWith_cons_cons, hNe, Bool.false_and]

theorem exists_bytes (tree : JsonTree UInt8) : ∃ b rest, tree.bytes = b :: rest ∧ b.toNat < 128 := by
  cases tree with
  | null => exact ⟨_, _, rfl, by decide⟩
  | bool value =>
    cases value with
    | false => exact ⟨_, _, rfl, by decide⟩
    | true => exact ⟨_, _, rfl, by decide⟩
  | number value =>
    obtain ⟨c, cs, hNumeral, _⟩ := exists_numeral value
    have hAscii := ascii_of_mem_numeral c (hNumeral ▸ List.mem_cons_self)
    refine ⟨byteSymbol c, cs.map byteSymbol, ?_, toNat_byteSymbol hAscii⟩
    rw [bytes, write, word, hNumeral, List.map_cons]
  | text value => exact ⟨_, _, rfl, by decide⟩
  | array items => exact ⟨_, _, rfl, by decide⟩
  | object fields => exact ⟨_, _, rfl, by decide⟩

theorem utf8Decode_bytes (tree : JsonTree UInt8) : utf8Decode tree.bytes = decode tree.bytes := by
  obtain ⟨b, rest, hBytes, hAscii⟩ := exists_bytes tree
  rw [utf8Decode, hBytes, not_ascii_of_bom hAscii, if_neg Bool.false_ne_true]

theorem isEmpty_bytes (tree : JsonTree UInt8) : tree.bytes.isEmpty = false := by
  obtain ⟨b, rest, hBytes, _⟩ := exists_bytes tree
  rw [hBytes]
  rfl

/-- A tree whose texts are valid is the encoding of one over characters. -/
theorem exists_map_encode {tree : JsonTree UInt8} (h : ∀ text ∈ tree.texts, Valid text) :
    ∃ text : JsonTree Char, tree = text.map encode id := by
  induction tree using JsonValue.induct with
  | null => exact ⟨.null, rfl⟩
  | bool value => exact ⟨.bool value, rfl⟩
  | number value => exact ⟨.number value, rfl⟩
  | text value =>
    obtain ⟨text, rfl⟩ := h value (List.mem_singleton_self _)
    exact ⟨.text text, rfl⟩
  | array items ih =>
    rw [JsonValue.texts, JsonValue.textsOfItems_eq] at h
    have hItems : ∃ texts : List (JsonTree Char), items = texts.map (JsonValue.map encode id) := by
      induction items with
      | nil => exact ⟨[], rfl⟩
      | cons item items ihItems =>
        rw [List.flatMap_cons, List.forall_mem_append] at h
        obtain ⟨hItem, hItems⟩ := List.forall_mem_cons.mp ih
        obtain ⟨text, rfl⟩ := hItem h.1
        obtain ⟨texts, rfl⟩ := ihItems hItems h.2
        exact ⟨text :: texts, rfl⟩
    obtain ⟨texts, rfl⟩ := hItems
    exact ⟨.array texts, by rw [JsonValue.map, JsonValue.mapItems_eq]⟩
  | object fields ih =>
    rw [JsonValue.texts, JsonValue.textsOfFields_eq] at h
    have hFields : ∃ texts : List (List Char × JsonTree Char),
        fields = texts.map fun field => (encode field.1, JsonValue.map encode id field.2) := by
      induction fields with
      | nil => exact ⟨[], rfl⟩
      | cons field fields ihFields =>
        obtain ⟨name, value⟩ := field
        rw [List.flatMap_cons, List.forall_mem_append, List.forall_mem_cons] at h
        obtain ⟨hValue, hFields⟩ := List.forall_mem_cons.mp ih
        obtain ⟨nameText, rfl⟩ := h.1.1
        obtain ⟨text, hText⟩ := hValue h.1.2
        obtain ⟨texts, rfl⟩ := ihFields hFields h.2
        exact ⟨(nameText, text) :: texts, by rw [List.map_cons, ← hText]⟩
    obtain ⟨texts, rfl⟩ := hFields
    exact ⟨.object texts, by rw [JsonValue.map, JsonValue.mapFields_eq]⟩

theorem decode_bytes_map (text : JsonTree Char) : decode (JsonTree.bytes (text.map encode id)) = some text.chars := by
  rw [← encode_chars, decode_encode]

/-- Exactly the trees whose texts are valid UTF-8 are read. -/
theorem readable_bytes (tree : JsonTree UInt8) : Readable tree.bytes tree ↔ ∀ text ∈ tree.texts, Valid text := by
  constructor
  · rintro ⟨value, hValue, _⟩
    rw [← valid_bytes, ← isSome_decode, ← utf8Decode_bytes]
    rw [decodeEventPayload, isEmpty_bytes, if_neg Bool.false_ne_true] at hValue
    obtain ⟨text, hText, _⟩ := Option.bind_eq_some_iff.mp hValue
    rw [hText]
    rfl
  · intro hValid
    obtain ⟨text, hTree⟩ := exists_map_encode hValid
    have hDecode (other : JsonTree Char) (hOther : tree = other.map encode id) :
        (utf8Decode tree.bytes).bind Json.parse = some other.read := by
      rw [utf8Decode_bytes, hOther, decode_bytes_map, Option.bind_some, parse_chars]
    refine ⟨text.read, ?_, ?_, fun other hOther => ?_⟩
    · rw [decodeEventPayload, isEmpty_bytes, if_neg Bool.false_ne_true, hDecode text hTree]
    · rw [readLastResultJson, isEmpty_bytes, if_neg Bool.false_ne_true, hDecode text hTree]
    · exact Option.some.inj ((hDecode text hTree).symm.trans (hDecode other hOther))

end JsonTree

namespace JsonCodec

def hunkTexts (hunk : DiffHunk) : List Bytes := hunk.heading :: hunk.lines.map DiffLine.text

def fileTexts (file : DiffFile) : List Bytes :=
  [file.oldPath, file.newPath, file.oldMode, file.newMode, file.oldBlob, file.newBlob] ++ file.hunks.flatMap hunkTexts

/-- The texts of a diff that come from git. -/
def diffTexts (diff : ParsedDiff) : List Bytes := diff.files.flatMap fileTexts

def entryTexts (entry : WorkingCopyEntry) : List Bytes :=
  [entry.path, entry.oldPath, entry.ancestorBlob, entry.oursBlob, entry.theirsBlob]

/-- The texts of the working copy that come from git. -/
def statusTexts (status : WorkingCopyStatus) : List Bytes := status.entries.flatMap entryTexts

theorem valid_of_ascii {text : Bytes} (h : text.all (fun b => decide (b.toNat < 128)) = true) : Valid text := by
  have hAscii : ∀ b ∈ text, b.toNat < 128 := fun b hb => of_decide_eq_true (List.all_eq_true.mp h b hb)
  have hValid : Valid (text ++ []) := (JsonTree.valid_ascii_append hAscii).mpr JsonTree.valid_nil
  rwa [List.append_nil] at hValid

theorem valid_diffLine (line : DiffLine) : (∀ text ∈ (diffLineTree line).texts, Valid text) ↔ Valid line.text := by
  simp (disch := decide) [diffLineTree, JsonValue.texts, JsonValue.textsOfFields_eq, valid_of_ascii]

theorem valid_diffHunk (hunk : DiffHunk) :
    (∀ text ∈ (diffHunkTree hunk).texts, Valid text) ↔ ∀ text ∈ hunkTexts hunk, Valid text := by
  have hLines : (∀ text ∈ (hunk.lines.map diffLineTree).flatMap JsonValue.texts, Valid text) ↔
      ∀ line ∈ hunk.lines, Valid line.text := by
    simp only [List.flatMap_map, List.forall_mem_flatMap, valid_diffLine]
  simp (disch := decide) only [diffHunkTree, JsonValue.texts, JsonValue.textsOfFields_eq, JsonValue.textsOfItems_eq,
    List.flatMap_cons, List.flatMap_nil, List.forall_mem_append, List.forall_mem_cons, valid_of_ascii, true_and, hLines]
  simp [hunkTexts]

theorem valid_diffFile (file : DiffFile) :
    (∀ text ∈ (diffFileTree file).texts, Valid text) ↔ ∀ text ∈ fileTexts file, Valid text := by
  have hHunks : (∀ text ∈ (file.hunks.map diffHunkTree).flatMap JsonValue.texts, Valid text) ↔
      ∀ text ∈ file.hunks.flatMap hunkTexts, Valid text := by
    simp only [List.flatMap_map, List.forall_mem_flatMap, valid_diffHunk]
  have hDisplay : Valid file.oldPath → Valid file.newPath → Valid (displayPath file) := by
    intro hOld hNew
    rw [displayPath]
    split
    · exact hOld
    · exact hNew
  simp (disch := decide) only [diffFileTree, JsonValue.texts, JsonValue.textsOfFields_eq, JsonValue.textsOfItems_eq,
    List.flatMap_cons, List.flatMap_nil, List.forall_mem_append, List.forall_mem_cons, valid_of_ascii, true_and, hHunks]
  have hShown : (∀ text ∈ fileTexts file, Valid text) → Valid (displayPath file) := fun hAll =>
    hDisplay (hAll _ (by simp [fileTexts])) (hAll _ (by simp [fileTexts]))
  simpa [fileTexts] using hShown

theorem valid_diff (diff : ParsedDiff) :
    (∀ text ∈ (diffTree diff).texts, Valid text) ↔ ∀ text ∈ diffTexts diff, Valid text := by
  have hFiles : (∀ text ∈ (diff.files.map diffFileTree).flatMap JsonValue.texts, Valid text) ↔
      ∀ text ∈ diffTexts diff, Valid text := by
    simp only [diffTexts, List.flatMap_map, List.forall_mem_flatMap, valid_diffFile]
  simp (disch := decide) only [diffTree, JsonValue.texts, JsonValue.textsOfFields_eq, JsonValue.textsOfItems_eq,
    List.flatMap_cons, List.flatMap_nil, List.forall_mem_append, List.forall_mem_cons, valid_of_ascii, true_and, hFiles]
  simp

theorem valid_workingCopyEntry (entry : WorkingCopyEntry) :
    (∀ text ∈ (workingCopyEntryTree entry).texts, Valid text) ↔ ∀ text ∈ entryTexts entry, Valid text := by
  simp (disch := decide) only [workingCopyEntryTree, JsonValue.texts, JsonValue.textsOfFields_eq, List.flatMap_cons,
    List.flatMap_nil, List.forall_mem_append, List.forall_mem_cons, valid_of_ascii, true_and]
  simp [entryTexts]

theorem valid_status (status : WorkingCopyStatus) :
    (∀ text ∈ (statusTree status).texts, Valid text) ↔ ∀ text ∈ statusTexts status, Valid text := by
  have hEntries : (∀ text ∈ (status.entries.map workingCopyEntryTree).flatMap JsonValue.texts, Valid text) ↔
      ∀ text ∈ statusTexts status, Valid text := by
    simp only [statusTexts, List.flatMap_map, List.forall_mem_flatMap, valid_workingCopyEntry]
  simp (disch := decide) only [statusTree, JsonValue.texts, JsonValue.textsOfFields_eq, JsonValue.textsOfItems_eq,
    List.flatMap_cons, List.flatMap_nil, List.forall_mem_append, List.forall_mem_cons, valid_of_ascii,
    true_and, hEntries]
  simp

end JsonCodec

/-- A payload is read back exactly when the texts in it are valid UTF-8: whatever is written, a diff,
or the working copy. -/
theorem readable_iff_valid (tree : JsonTree UInt8) (diff : ParsedDiff) (status : WorkingCopyStatus) :
    (Readable tree.bytes tree ↔ ∀ text ∈ tree.texts, Valid text) ∧
    (Readable (JsonCodec.diffToJson diff) (JsonCodec.diffTree diff) ↔
      ∀ text ∈ JsonCodec.diffTexts diff, Valid text) ∧
    (Readable (JsonCodec.statusToJson status) (JsonCodec.statusTree status) ↔
      ∀ text ∈ JsonCodec.statusTexts status, Valid text) := by
  refine ⟨JsonTree.readable_bytes tree, ?_, ?_⟩
  · rw [JsonCodec.diffToJson_eq, JsonTree.readable_bytes, JsonCodec.valid_diff]
  · rw [JsonCodec.statusToJson_eq, JsonTree.readable_bytes, JsonCodec.valid_status]

theorem not_valid_singleton {b : UInt8} (h : 128 ≤ b.toNat) : ¬ Valid [b] := by
  rintro ⟨_ | ⟨c, text⟩, hText⟩
  · cases hText
  · rw [encode, List.flatMap_cons] at hText
    have hChar : String.utf8EncodeChar c = [b] :=
      ((List.append_eq_singleton_iff.mp hText).resolve_left fun hNone => String.utf8EncodeChar_ne_nil hNone.1).1
    have hLength := congrArg List.length hChar
    rw [String.length_utf8EncodeChar, List.length_singleton, Char.utf8Size_eq_one_iff,
      UInt32.le_iff_toNat_le] at hLength
    have hAscii : c.toNat < 128 := Nat.lt_succ_of_le hLength
    rw [encodeChar_of_ascii hAscii] at hChar
    obtain rfl := List.singleton_inj.mp hChar
    rw [Nat.toUInt8, UInt8.toNat_ofNat'] at h
    omega

/-- A line of a file in Latin-1. -/
def latinLine : ParsedDiff where
  files :=
    [{ oldPath := [97], newPath := [97], hunks := [{ lines := [{ kind := .added, newLine := 1, text := [0xE9] }] }] }]

theorem latin_line_unreadable : ¬ ∀ diff, Readable (JsonCodec.diffToJson diff) (JsonCodec.diffTree diff) := by
  intro h
  have hReadable := h latinLine
  rw [JsonCodec.diffToJson_eq, JsonTree.readable_bytes, JsonCodec.valid_diff] at hReadable
  have hLine : [0xE9] ∈ JsonCodec.diffTexts latinLine := by decide
  exact not_valid_singleton (by decide) (hReadable _ hLine)

end GitBranchManager
