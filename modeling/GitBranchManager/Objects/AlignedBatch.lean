import GitBranchManager.Library.Runs
import GitBranchManager.Objects.CatFileBatch

/-! # The co-process answers its own requests

After every call that does not poison the batch, nothing of the answer is left on the pipe.
-/

namespace GitBranchManager

inductive ObjectType
  | blob
  | tree
  | commit
  | tag
  deriving DecidableEq, Repr

def ObjectType.name : ObjectType → Bytes
  | .blob => ascii "blob"
  | .tree => ascii "tree"
  | .commit => ascii "commit"
  | .tag => ascii "tag"

inductive CatFileResponse
  | found (oid : ObjectId) (type : ObjectType) (content : Bytes)
  | missing
  | ambiguous
  deriving DecidableEq

namespace CatFileResponse

def line (revision : Bytes) : CatFileResponse → Bytes
  | .found oid type content =>
    ObjectId.hex oid ++ space :: type.name ++ space :: Library.Decimal.numeral content.length
  | .missing => revision ++ ascii " missing"
  | .ambiguous => revision ++ ascii " ambiguous"

def payload : CatFileResponse → Bytes
  | .found _ _ content => content ++ [LF]
  | _ => []

/-- What git prints for the request. -/
def bytes (revision : Bytes) (response : CatFileResponse) : Bytes :=
  response.line revision ++ LF :: response.payload

/-- An object has an id, and its size fits a `std::size_t`. -/
def Printable : CatFileResponse → Prop
  | .found oid _ content => oid.isNull = false ∧ content.length + 1 < 2 ^ 64
  | _ => True

/-- What the caller is told: the object, that it is too large, or that there is none. -/
def answer (revision : Bytes) : CatFileResponse → GitResult CatFileObject
  | .found oid type content =>
    if CatFileBatch.kMaxObjectBytes < content.length then .error (CatFileBatch.tooLarge content.length)
    else .ok { oid, type := type.name, content }
  | .missing => .error (CatFileBatch.noSuchObject revision)
  | .ambiguous => .error (CatFileBatch.ambiguousName revision)

end CatFileResponse

namespace CatFileBatch

open Library

section Find

theorem find_isSome (front needle rest : Bytes) : (find needle (front ++ (needle ++ rest))).isSome = true := by
  induction front with
  | nil => rw [List.nil_append, find_of_startsWith (startsWith_append _ _)]; rfl
  | cons b front ih =>
    rw [List.cons_append, find]
    split
    · rfl
    · rw [Option.isSome_map, ih]

end Find

section Header

/-- The letters of a found object's header are hexadecimal digits and those of its type. -/
theorem not_mem_line {revision : Bytes} (oid : ObjectId) (type : ObjectType) (content : Bytes) {b : UInt8}
    (hDigit : b ∉ ObjectId.kDigits) (hType : b ∉ type.name) (hSpace : b ≠ space)
    (hDecimal : Decimal.isDigit b = false) :
    b ∉ (CatFileResponse.found oid type content).line revision := by
  simp only [CatFileResponse.line, List.mem_append, List.mem_cons, not_or]
  exact ⟨⟨fun hMem => hDigit (ObjectId.mem_kDigits_of_mem_hex hMem), hSpace, hType⟩, hSpace,
    Decimal.not_mem_numeral _ hDecimal⟩

theorem parseHeader_found {oid : ObjectId} (hId : oid.isNull = false) (type : ObjectType) {content : Bytes}
    (hSize : content.length < 2 ^ 64) (revision : Bytes) :
    parseHeader ((CatFileResponse.found oid type content).line revision) =
      .ok { oid, type := type.name, size := content.length } := by
  have hHex : space ∉ ObjectId.hex oid := fun hMem =>
    absurd (ObjectId.mem_kDigits_of_mem_hex hMem) (by decide)
  have hType : space ∉ type.name := by cases type <;> decide
  have hRest : ((CatFileResponse.found oid type content).line revision) =
      ObjectId.hex oid ++ space :: (type.name ++ space :: Decimal.numeral content.length) := by
    simp [CatFileResponse.line]
  have hDigits : (Decimal.numeral content.length).all Decimal.isDigit = true :=
    List.all_eq_true.mpr fun b hb => Decimal.isDigit_of_mem_numeral hb
  rw [parseHeader, hRest, find_byte hHex]
  simp only [drop_field, List.take_left, find_byte hType, hDigits, if_true, Decimal.value_numeral,
    ObjectId.fromHex_hex hId, Nat.mod_eq_of_lt hSize]

theorem length_line_found {oid : ObjectId} (type : ObjectType) {content : Bytes}
    (hSize : content.length < 2 ^ 64) (revision : Bytes) :
    ((CatFileResponse.found oid type content).line revision).length ≤ kMaxHeader := by
  have hHex : (ObjectId.hex oid).length ≤ 64 := by
    have hLength := oid.length_mem
    rw [ObjectId.length_hex]
    simp only [List.mem_cons, List.not_mem_nil, or_false] at hLength
    omega
  have hType : type.name.length ≤ 6 := by cases type <;> decide
  have hDecimal : (Decimal.numeral content.length).length ≤ (Decimal.numeral (2 ^ 64)).length :=
    Decimal.length_numeral_mono (Nat.le_of_lt hSize)
  have hBound : (Decimal.numeral (2 ^ 64)).length ≤ 20 := by decide
  simp only [CatFileResponse.line, List.length_append, List.length_cons, kMaxHeader]
  omega

/-- A line that tells neither of a missing nor of an ambiguous object, and has fewer than two
spaces or no number behind the second. -/
def Malformed (header : Bytes) : Prop :=
  ¬ (8 < header.length ∧ header.drop (header.length - 8) = ascii " missing") ∧
  find (ascii " ambiguous") header = none ∧
  (header.count space < 2 ∨ ∃ oid type digits, header = oid ++ space :: (type ++ space :: digits) ∧
    space ∉ oid ∧ space ∉ type ∧ ∃ b ∈ digits, Decimal.isDigit b = false)

theorem parseHeader_malformed {header : Bytes} (h : Malformed header) :
    ∃ error, parseHeader header = .error error := by
  obtain ⟨-, -, hFew | ⟨oid, type, digits, rfl, hOid, hType, b, hMem, hDigit⟩⟩ := h
  · by_cases hFirst : space ∈ header
    · obtain ⟨front, rest, rfl, hFront⟩ := List.eq_append_cons_of_mem hFirst
      have hRest : space ∉ rest := by
        intro hMem
        have hCount := List.count_pos_iff.mpr hMem
        rw [List.count_append, List.count_cons_self] at hFew
        omega
      refine ⟨{ code := .parseError, message := ascii "Unexpected cat-file response" }, ?_⟩
      rw [parseHeader, find_byte hFront]
      simp only [drop_field]
      rw [find_eq_none List.mem_cons_self hRest]
    · exact ⟨_, by rw [parseHeader, find_eq_none List.mem_cons_self hFirst]⟩
  · have hAll : ¬ digits.all Decimal.isDigit = true := by
      intro hAll
      rw [List.all_eq_true.mp hAll b hMem] at hDigit
      cases hDigit
    refine ⟨{ code := .parseError, message := ascii "Unexpected cat-file size" }, ?_⟩
    rw [parseHeader, find_byte hOid]
    simp only [drop_field, find_byte hType]
    exact if_neg hAll

end Header

section Exchange

variable {revision : Bytes} {response : CatFileResponse} {pipe : List Bytes}

theorem lf_not_mem_line (hRevision : LF ∉ revision) : LF ∉ response.line revision := by
  cases response with
  | found oid type content =>
    exact not_mem_line oid type content (by decide) (by cases type <;> decide) (by decide) (by decide)
  | missing => exact fun hMem => (List.mem_append.mp hMem).elim hRevision (by decide)
  | ambiguous => exact fun hMem => (List.mem_append.mp hMem).elim hRevision (by decide)

theorem found_not_missing (oid : ObjectId) (type : ObjectType) (content : Bytes) :
    ¬ (8 < ((CatFileResponse.found oid type content).line revision).length ∧
      ((CatFileResponse.found oid type content).line revision).drop
        (((CatFileResponse.found oid type content).line revision).length - 8) = ascii " missing") := by
  rintro ⟨-, hEnd⟩
  have hLetter : (110 : UInt8) ∉ (CatFileResponse.found oid type content).line revision :=
    not_mem_line oid type content (by decide) (by cases type <;> decide) (by decide) (by decide)
  refine hLetter (List.mem_of_mem_drop (i := ?_) ?_)
  · exact ((CatFileResponse.found oid type content).line revision).length - 8
  · rw [hEnd]
    decide

theorem found_not_ambiguous (oid : ObjectId) (type : ObjectType) (content : Bytes) :
    find (ascii " ambiguous") ((CatFileResponse.found oid type content).line revision) = none := by
  have hLetter : (117 : UInt8) ∉ (CatFileResponse.found oid type content).line revision :=
    not_mem_line oid type content (by decide) (by cases type <;> decide) (by decide) (by decide)
  exact find_eq_none (by decide) hLetter

/-- The header of a found object leads to its payload. -/
theorem exchange_found {oid : ObjectId} {type : ObjectType} {content : Bytes}
    (hPrintable : (CatFileResponse.found oid type content).Printable) (hRevision : LF ∉ revision)
    (hLive : Chunks.Live pipe) {rest : Bytes}
    (hPipe : pipe.flatten = (CatFileResponse.found oid type content).line revision ++ LF :: rest) :
    ∃ pipe', Chunks.Live pipe' ∧ pipe'.flatten = rest ∧
      exchangeLocked revision true pipe =
        readPayload { oid, type := type.name, size := content.length } pipe' := by
  have hSize : content.length < 2 ^ 64 := Nat.lt_of_succ_lt hPrintable.2
  obtain ⟨pipe', hRead, hLive', hRest⟩ :=
    Chunks.readLine_line hLive (lf_not_mem_line hRevision) hPipe
      (Nat.lt_succ_of_le (length_line_found type hSize revision))
  refine ⟨pipe', hLive', hRest, ?_⟩
  rw [exchangeLocked, hRead]
  simp only [Bool.not_true, Bool.false_eq_true, if_false, if_neg (found_not_missing oid type content),
    found_not_ambiguous, Option.isSome_none, parseHeader_found hPrintable.1 type hSize]

theorem readPayload_complete {header : ResponseHeader} {content : Bytes}
    (hSize : header.size = content.length) (hFits : content.length + 1 < 2 ^ 64)
    (hLive : Chunks.Live pipe) (hPipe : pipe.flatten = content ++ [LF]) :
    readPayload header pipe =
      (if kMaxObjectBytes < content.length then .error (tooLarge content.length)
        else .ok { oid := header.oid, type := header.type, content }, false, []) := by
  rw [readPayload, hSize]
  by_cases hLarge : kMaxObjectBytes < content.length
  · have hRemaining : (content.length + 1) % 2 ^ 64 = content.length + 1 := Nat.mod_eq_of_lt hFits
    obtain ⟨pipe', hRead, hLive', hRest⟩ :=
      Chunks.collect_enough (show 0 < kScratch by decide) (Nat.le_refl _) hLive
        (show (content ++ [LF]).length = content.length + 1 by simp) (hPipe.trans (List.append_nil _).symm)
    obtain rfl := hLive'.eq_nil hRest
    simp only [if_pos hLarge, hRemaining, hRead]
  · obtain ⟨pipe', hRead, hLive', hRest⟩ :=
      Chunks.collect_enough (show 0 < kMaxObjectBytes by decide) (Nat.le_refl _) hLive rfl hPipe
    obtain ⟨pipe'', hEnd, hLive'', hNone⟩ :=
      Chunks.collect_enough Nat.one_pos (Nat.le_refl 1) hLive' (show [LF].length = 1 from rfl)
        (hRest.trans (List.append_nil _).symm)
    obtain rfl := hLive''.eq_nil hNone
    simp only [if_neg hLarge, hRead, hEnd]
    rfl

theorem readPayload_short {header : ResponseHeader} (hFits : header.size + 1 < 2 ^ 64)
    (hLive : Chunks.Live pipe) (hShort : pipe.flatten.length ≤ header.size) :
    (readPayload header pipe).2.1 = true := by
  rw [readPayload]
  by_cases hLarge : kMaxObjectBytes < header.size
  · have hRemaining : (header.size + 1) % 2 ^ 64 = header.size + 1 := Nat.mod_eq_of_lt hFits
    have hNone := @Chunks.collect_short _ kScratch (header.size + 1) _ _ hLive (by decide)
      (Nat.lt_succ_of_le hShort)
    simp only [if_pos hLarge, hRemaining]
    rcases hRead : Chunks.collect kScratch (header.size + 1) (header.size + 1) pipe with ⟨_ | block, rest⟩
    · rfl
    · rw [hRead] at hNone
      cases hNone
  · simp only [if_neg hLarge]
    rcases Nat.lt_or_eq_of_le hShort with hLess | hEqual
    · have hNone := @Chunks.collect_short _ kMaxObjectBytes header.size _ _ hLive (by decide) hLess
      rcases hRead : Chunks.collect kMaxObjectBytes header.size header.size pipe with ⟨_ | block, rest⟩
      · rfl
      · rw [hRead] at hNone
        cases hNone
    · obtain ⟨pipe', hRead, hLive', hRest⟩ :=
        Chunks.collect_enough (show 0 < kMaxObjectBytes by decide) (Nat.le_refl _) hLive hEqual
          (List.append_nil _).symm
      obtain rfl := hLive'.eq_nil hRest
      rw [hRead]
      rfl

theorem exchange_complete (hPrintable : response.Printable) (hRevision : LF ∉ revision)
    (hSome : revision ≠ []) (hLive : Chunks.Live pipe) (hPipe : pipe.flatten = response.bytes revision)
    (hLine : (response.line revision).length ≤ kMaxHeader) :
    exchangeLocked revision true pipe = (response.answer revision, false, []) := by
  cases response with
  | found oid type content =>
    obtain ⟨pipe', hLive', hRest, hExchange⟩ := exchange_found hPrintable hRevision hLive hPipe
    rw [hExchange, readPayload_complete rfl hPrintable.2 hLive' hRest]
    rfl
  | missing =>
    obtain ⟨pipe', hRead, hLive', hRest⟩ :=
      Chunks.readLine_line hLive (lf_not_mem_line hRevision) hPipe (Nat.lt_succ_of_le hLine)
    obtain rfl := hLive'.eq_nil hRest
    have hLength : (revision ++ ascii " missing").length = revision.length + 8 := List.length_append
    have hMissing : (revision ++ ascii " missing").drop ((revision ++ ascii " missing").length - 8) =
        ascii " missing" := by
      rw [hLength]
      exact List.drop_left
    have hLong : 8 < (revision ++ ascii " missing").length := by
      have hPos := List.length_pos_iff.mpr hSome
      omega
    rw [exchangeLocked, hRead]
    simp only [Bool.not_true, Bool.false_eq_true, if_false]
    exact if_pos ⟨hLong, hMissing⟩
  | ambiguous =>
    obtain ⟨pipe', hRead, hLive', hRest⟩ :=
      Chunks.readLine_line hLive (lf_not_mem_line hRevision) hPipe (Nat.lt_succ_of_le hLine)
    obtain rfl := hLive'.eq_nil hRest
    have hNotMissing : ¬ (8 < (revision ++ ascii " ambiguous").length ∧
        (revision ++ ascii " ambiguous").drop ((revision ++ ascii " ambiguous").length - 8) =
          ascii " missing") := by
      rintro ⟨-, hEnd⟩
      have hTail : (revision ++ ascii " ambiguous").drop ((revision ++ ascii " ambiguous").length - 8) =
          ascii "mbiguous" := by
        have hSplit : revision ++ ascii " ambiguous" = (revision ++ ascii " a") ++ ascii "mbiguous" := by
          rw [List.append_assoc]
          rfl
        have hLength : ((revision ++ ascii " a") ++ ascii "mbiguous").length = (revision ++ ascii " a").length + 8 :=
          List.length_append
        rw [hSplit, hLength]
        exact List.drop_left
      rw [hTail] at hEnd
      exact absurd hEnd (by decide)
    have hAmbiguous := find_isSome revision (ascii " ambiguous") []
    rw [List.append_nil] at hAmbiguous
    rw [exchangeLocked, hRead]
    simp only [Bool.not_true, Bool.false_eq_true, if_false]
    exact (if_neg hNotMissing).trans (if_pos hAmbiguous)

/-- A line that does not end, or ends too late, is no header. -/
theorem exchange_no_line (hLive : Chunks.Live pipe) (h : LF ∉ pipe.flatten.take (kMaxHeader + 1)) :
    (exchangeLocked revision true pipe).2.1 = true := by
  have hNone := Chunks.readLine_none hLive h
  rw [exchangeLocked]
  rcases hRead : Chunks.readLine LF (kMaxHeader + 1) pipe with ⟨_ | header, rest⟩
  · rfl
  · rw [hRead] at hNone
    cases hNone

theorem exchange_long {header rest : Bytes} (hLive : Chunks.Live pipe)
    (hPipe : pipe.flatten = header ++ LF :: rest) (hHeader : LF ∉ header) (hLong : kMaxHeader < header.length) :
    (exchangeLocked revision true pipe).2.1 = true := by
  refine exchange_no_line hLive ?_
  rw [hPipe, List.take_append_of_le_length hLong]
  exact fun hMem => hHeader (List.mem_of_mem_take hMem)

theorem exchange_malformed {header rest : Bytes} (hLive : Chunks.Live pipe)
    (hPipe : pipe.flatten = header ++ LF :: rest) (hHeader : LF ∉ header) (hMalformed : Malformed header) :
    (exchangeLocked revision true pipe).2.1 = true := by
  rcases Nat.lt_or_ge kMaxHeader header.length with hLong | hShort
  · exact exchange_long hLive hPipe hHeader hLong
  · obtain ⟨pipe', hRead, -, -⟩ := Chunks.readLine_line hLive hHeader hPipe (Nat.lt_succ_of_le hShort)
    obtain ⟨error, hError⟩ := parseHeader_malformed hMalformed
    rw [exchangeLocked, hRead]
    simp only [Bool.not_true, Bool.false_eq_true, if_false, if_neg hMalformed.1, hMalformed.2.1,
      Option.isSome_none, hError]

/-- An answer that was cut off is noticed, wherever the cut is. -/
theorem exchange_cut (hPrintable : response.Printable) (hRevision : LF ∉ revision) (hLive : Chunks.Live pipe)
    {lost : Bytes} (hLost : lost ≠ []) (hPipe : pipe.flatten ++ lost = response.bytes revision) :
    (exchangeLocked revision true pipe).2.1 = true := by
  have hLine : LF ∉ response.line revision := lf_not_mem_line hRevision
  rcases List.append_eq_append_iff.mp hPipe with ⟨rest, hFront, -⟩ | ⟨rest, hFlatten, hRest⟩
  · refine exchange_no_line hLive fun hMem => hLine ?_
    rw [hFront]
    exact List.mem_append_left _ (List.mem_of_mem_take hMem)
  · cases rest with
    | nil =>
      rw [List.append_nil] at hFlatten
      refine exchange_no_line hLive fun hMem => hLine ?_
      rw [← hFlatten]
      exact List.mem_of_mem_take hMem
    | cons b rest =>
      obtain ⟨rfl, hPayload⟩ := List.cons.inj hRest
      cases response with
      | found oid type content =>
        obtain ⟨pipe', hLive', hRest', hExchange⟩ := exchange_found hPrintable hRevision hLive hFlatten
        rw [hExchange]
        refine readPayload_short hPrintable.2 hLive' ?_
        have hLength : (content ++ [LF]).length = (rest ++ lost).length := congrArg List.length hPayload
        have hSome := List.length_pos_iff.mpr hLost
        rw [List.length_append, List.length_append, List.length_singleton] at hLength
        rw [hRest']
        change rest.length ≤ content.length
        omega
      | missing => exact absurd (List.append_eq_nil_iff.mp hPayload.symm).2 hLost
      | ambiguous => exact absurd (List.append_eq_nil_iff.mp hPayload.symm).2 hLost

theorem readPayload_ok {header : ResponseHeader} {object : CatFileObject}
    (h : (readPayload header pipe).1 = .ok object) : (readPayload header pipe).2.1 = false := by
  revert h
  rw [readPayload]
  split
  · simp only
    split
    · exact fun _ => rfl
    · exact fun h => absurd h (by simp)
  · split
    · exact fun h => absurd h (by simp)
    · split
      · exact fun _ => rfl
      · exact fun h => absurd h (by simp)

theorem exchange_ok {written : Bool} {object : CatFileObject}
    (h : (exchangeLocked revision written pipe).1 = .ok object) :
    (exchangeLocked revision written pipe).2.1 = false := by
  revert h
  rw [exchangeLocked]
  split
  · exact fun h => absurd h (by simp)
  · split
    · exact fun h => absurd h (by simp)
    · split
      · exact fun _ => rfl
      · split
        · exact fun _ => rfl
        · split
          · exact fun h => absurd h (by simp)
          · exact readPayload_ok

end Exchange

/-- What the pipe brings for a request: git's answer, a front of it, or a line that is no header. -/
inductive Arrival (revision : Bytes) (response : CatFileResponse) (arrives : List Bytes) : Prop
  | complete (h : arrives.flatten = response.bytes revision)
  | cut (lost : Bytes) (hLost : lost ≠ []) (h : arrives.flatten ++ lost = response.bytes revision)
  | malformed (header rest : Bytes) (h : arrives.flatten = header ++ LF :: rest) (hHeader : LF ∉ header)
    (hMalformed : Malformed header ∨ kMaxHeader < header.length)

/-- The request gets as far as the child. -/
def Reaches (s : CatFileBatch) (request : CatFileRequest) : Prop :=
  request.revision ≠ [] ∧ LF ∉ request.revision ∧ request.cancelled = false ∧
    (s.isRunning = true ∨ request.spawns = true)

structure Inv (s : CatFileBatch) : Prop where
  aligned : ∀ child, s.child = some child → s.poisoned = false → child.unread = []
  started : ∀ child, s.child = some child → child.id < s.spawned

theorem Inv.childless {s : CatFileBatch} (hNone : s.child = none) : Inv s where
  aligned _ hChild := by cases hNone.symm.trans hChild
  started _ hChild := by cases hNone.symm.trans hChild

/-- A child that is ready has nothing to read; if the batch was not usable it is a new one. -/
theorem ready_spec {s s' : CatFileBatch} (hInv : Inv s) {spawns : Bool} {child : CatFileChild}
    (h : s.ready spawns = (some child, s')) :
    Inv s' ∧ s'.child = some child ∧ s'.poisoned = false ∧ child.unread = [] ∧
      (s.isRunning = false → child.id = s.spawned) := by
  obtain ⟨current, poisoned, spawned⟩ := s
  have hNew (hSpawn : (if spawns then (some ({ id := spawned } : CatFileChild),
        ({ child := some { id := spawned }, spawned := spawned + 1 } : CatFileBatch))
      else (none, { child := none, poisoned := false, spawned })) = (some child, s')) :
      Inv s' ∧ s'.child = some child ∧ s'.poisoned = false ∧ child.unread = [] ∧ child.id = spawned := by
    split at hSpawn
    · obtain ⟨hChild, rfl⟩ := Prod.mk.inj hSpawn
      obtain rfl := Option.some.inj hChild
      refine ⟨⟨?_, ?_⟩, rfl, rfl, rfl, rfl⟩
      · rintro _ hSame -
        obtain rfl := Option.some.inj hSame
        rfl
      · rintro _ hSame
        obtain rfl := Option.some.inj hSame
        exact Nat.lt_succ_self _
    · cases (Prod.mk.inj hSpawn).1
  rcases current with _ | current
  · obtain ⟨hInv', hChild, hPoison, hUnread, hId⟩ := hNew h
    exact ⟨hInv', hChild, hPoison, hUnread, fun _ => hId⟩
  · cases poisoned with
    | false =>
      obtain ⟨hChild, rfl⟩ := Prod.mk.inj h
      obtain rfl := Option.some.inj hChild
      exact ⟨hInv, rfl, rfl, hInv.aligned _ rfl rfl, fun hIdle => Bool.noConfusion hIdle⟩
    | true =>
      obtain ⟨hInv', hChild, hPoison, hUnread, hId⟩ := hNew h
      exact ⟨hInv', hChild, hPoison, hUnread, fun _ => hId⟩

theorem ready_none {s s' : CatFileBatch} {spawns : Bool} (h : s.ready spawns = (none, s')) :
    s'.child = none ∧ s.isRunning = false ∧ spawns = false := by
  rw [ready] at h
  split at h
  · cases (Prod.mk.inj h).1
  · rename_i hIdle
    split at h
    · cases (Prod.mk.inj h).1
    · rename_i hSpawn
      obtain rfl := (Prod.mk.inj h).2
      refine ⟨rfl, ?_, Bool.eq_false_iff.mpr hSpawn⟩
      rw [isRunning]
      rcases hChild : s.child with _ | child
      · rfl
      · cases hPoison : s.poisoned with
        | false => exact absurd hPoison (hIdle child hChild)
        | true => rfl

/-- The state after an exchange with the child that was ready. -/
def afterExchange (s : CatFileBatch) (child : CatFileChild) (request : CatFileRequest) : CatFileBatch :=
  let exchange := exchangeLocked request.revision request.written request.arrives
  { s with child := some { child with unread := exchange.2.2 }, poisoned := request.fired || exchange.2.1 }

theorem read_of_reaches {s : CatFileBatch} (hInv : Inv s) {request : CatFileRequest}
    (h : Reaches s request) :
    ∃ (child : CatFileChild) (s' : CatFileBatch), s.ready request.spawns = (some child, s') ∧
      s.read request =
        (if request.fired then .error (timedOut request.deadlineMs)
          else (exchangeLocked request.revision request.written request.arrives).1,
          afterExchange s' child request) := by
  obtain ⟨hSome, hRevision, hGoes, hChild⟩ := h
  rcases hReady : s.ready request.spawns with ⟨_ | child, s'⟩
  · obtain ⟨-, hIdle, hFails⟩ := ready_none hReady
    rw [hIdle, hFails] at hChild
    rcases hChild with hRunning | hSpawns
    · cases hRunning
    · cases hSpawns
  · refine ⟨child, s', rfl, ?_⟩
    have hUnread := (ready_spec hInv hReady).2.2.2.1
    have hValid : (request.revision.isEmpty || request.revision.contains LF) = false := by
      rw [Bool.or_eq_false_iff]
      exact ⟨List.isEmpty_eq_false_iff.mpr hSome, by simpa using hRevision⟩
    rw [read, hValid, hGoes, hReady]
    simp only [Bool.false_eq_true, if_false, hUnread, List.nil_append]
    cases hFired : request.fired with
    | false => simp [afterExchange, hFired]
    | true => simp [afterExchange, hFired]

/-- A request that does not reach the child is refused, and leaves a usable batch as it is. -/
theorem read_refused {s : CatFileBatch} (hInv : Inv s) {request : CatFileRequest} (h : ¬ Reaches s request) :
    (∃ error, (s.read request).1 = .error error) ∧ Inv (s.read request).2 := by
  rw [read]
  by_cases hInvalid : (request.revision.isEmpty || request.revision.contains LF) = true
  · rw [if_pos hInvalid]
    exact ⟨⟨_, rfl⟩, hInv⟩
  · rw [if_neg hInvalid]
    by_cases hCancelled : request.cancelled = true
    · rw [if_pos hCancelled]
      exact ⟨⟨_, rfl⟩, hInv⟩
    · rw [if_neg hCancelled]
      rcases hReady : s.ready request.spawns with ⟨_ | child, s'⟩
      · exact ⟨⟨_, rfl⟩, Inv.childless (ready_none hReady).1⟩
      · refine absurd ⟨?_, ?_, Bool.eq_false_iff.mpr hCancelled, ?_⟩ h
        · rintro hEmpty
          simp [hEmpty] at hInvalid
        · intro hMem
          simp [hMem] at hInvalid
        · refine Decidable.byContradiction fun hNot => ?_
          rw [not_or, Bool.not_eq_true, Bool.not_eq_true] at hNot
          obtain ⟨current, poisoned, spawned⟩ := s
          obtain ⟨hIdle, hFails⟩ := hNot
          rw [hFails] at hReady
          rcases current with _ | current
          · cases hReady
          · cases poisoned with
            | false => cases hIdle
            | true => cases hReady

/-- An exchange poisons the batch, or gives git's whole answer and empties the pipe. -/
theorem exchange_arrival {request : CatFileRequest} {response : CatFileResponse}
    (hPrintable : response.Printable) (hRevision : LF ∉ request.revision) (hSome : request.revision ≠ [])
    (hLive : Chunks.Live request.arrives) (hArrival : Arrival request.revision response request.arrives) :
    (exchangeLocked request.revision request.written request.arrives).2.1 = true ∨
    request.written = true ∧ request.arrives.flatten = response.bytes request.revision ∧
      exchangeLocked request.revision request.written request.arrives =
        (response.answer request.revision, false, []) := by
  cases hWritten : request.written with
  | false => exact .inl rfl
  | true =>
    cases hArrival with
    | complete h =>
      rcases Nat.lt_or_ge kMaxHeader (response.line request.revision).length with hLong | hShort
      · exact .inl (exchange_long hLive h (lf_not_mem_line hRevision) hLong)
      · exact .inr ⟨rfl, h, exchange_complete hPrintable hRevision hSome hLive h hShort⟩
    | cut lost hLost h => exact .inl (exchange_cut hPrintable hRevision hLive hLost h)
    | malformed header rest h hHeader hMalformed =>
      rcases hMalformed with hMalformed | hLong
      · exact .inl (exchange_malformed hLive h hHeader hMalformed)
      · exact .inl (exchange_long hLive h hHeader hLong)

inductive CatFileEvent
  | start (spawns : Bool)
  | stop
  | read (request : CatFileRequest) (response : CatFileResponse)
  deriving DecidableEq

def step (s : CatFileBatch) : CatFileEvent → Option CatFileBatch
  | .start spawns => some (s.start spawns)
  | .stop => some s.stop
  | .read request _ => some (s.read request).2

/-- The pipe brings git's answer to the request, whole or cut, or something that is no answer. -/
def Served (request : CatFileRequest) (response : CatFileResponse) : Prop :=
  response.Printable ∧ Chunks.Live request.arrives ∧ Arrival request.revision response request.arrives

def Admitted (_ : CatFileBatch) : CatFileEvent → Prop
  | .read request response => Served request response
  | _ => True

theorem Inv.afterExchange {s : CatFileBatch} (hInv : Inv s) {child : CatFileChild}
    (hChild : s.child = some child) {request : CatFileRequest} {response : CatFileResponse}
    (h : Served request response) (hRevision : LF ∉ request.revision) (hSome : request.revision ≠ []) :
    Inv (s.afterExchange child request) := by
  constructor
  · rintro _ hSame hClean
    obtain rfl := Option.some.inj hSame
    obtain ⟨-, hPoison⟩ := Bool.or_eq_false_iff.mp hClean
    rcases exchange_arrival h.1 hRevision hSome h.2.1 h.2.2 with hPoisoned | ⟨-, -, hExchange⟩
    · rw [hPoisoned] at hPoison
      cases hPoison
    · rw [hExchange]
  · rintro _ hSame
    obtain rfl := Option.some.inj hSame
    exact hInv.started child hChild

theorem Inv.read {s : CatFileBatch} (hInv : Inv s) {request : CatFileRequest} {response : CatFileResponse}
    (h : Served request response) : Inv (s.read request).2 := by
  by_cases hReaches : Reaches s request
  · obtain ⟨child, s', hReady, hRead⟩ := read_of_reaches hInv hReaches
    obtain ⟨hInv', hChild, -⟩ := ready_spec hInv hReady
    rw [hRead]
    exact hInv'.afterExchange hChild h hReaches.2.1 hReaches.1
  · exact (read_refused hInv hReaches).2

theorem Inv.step {s s' : CatFileBatch} {event : CatFileEvent} (hInv : Inv s) (h : Admitted s event)
    (hStep : s.step event = some s') : Inv s' := by
  cases event with
  | start spawns =>
    obtain rfl := Option.some.inj hStep
    rw [CatFileBatch.start]
    rcases hReady : s.ready spawns with ⟨_ | child, s'⟩
    · exact Inv.childless (ready_none hReady).1
    · exact (ready_spec hInv hReady).1
  | stop =>
    obtain rfl := Option.some.inj hStep
    exact Inv.childless rfl
  | read request response =>
    obtain rfl := Option.some.inj hStep
    exact hInv.read h

/-- A request to a new child whose answer comes in one piece. -/
def singleRequest (revision : Bytes) (response : CatFileResponse) : CatFileRequest where
  revision
  arrives := [response.bytes revision]

theorem read_single {revision : Bytes} {response : CatFileResponse} (hPrintable : response.Printable)
    (hRevision : LF ∉ revision) (hSome : revision ≠ []) (hLine : (response.line revision).length ≤ kMaxHeader) :
    Served (singleRequest revision response) response ∧
    (({} : CatFileBatch).read (singleRequest revision response)).1 = response.answer revision ∧
    (({} : CatFileBatch).read (singleRequest revision response)).2.poisoned = false := by
  have hWhole : (singleRequest revision response).arrives.flatten = response.bytes revision := by
    rw [singleRequest, List.flatten_cons, List.flatten_nil, List.append_nil]
  have hLive : Chunks.Live (singleRequest revision response).arrives := by
    refine List.forall_mem_singleton.mpr fun hEmpty => ?_
    exact absurd (List.append_eq_nil_iff.mp hEmpty).2 (List.cons_ne_nil _ _)
  obtain ⟨child, s', hReady, hRead⟩ :=
    read_of_reaches (Inv.childless rfl)
      (⟨hSome, hRevision, rfl, .inr rfl⟩ : Reaches {} (singleRequest revision response))
  have hAnswer := exchange_complete hPrintable hRevision hSome hLive hWhole hLine
  refine ⟨⟨hPrintable, hLive, .complete hWhole⟩, ?_, ?_⟩
  · rw [hRead]
    exact congrArg Prod.fst hAnswer
  · rw [hRead]
    exact congrArg (fun exchange => exchange.2.1) hAnswer

def oversizedContent : Bytes := List.replicate (kMaxObjectBytes + 1) 0

def oversizedResponse : CatFileResponse := .found (ObjectId.replicate 1) .blob oversizedContent

def smallResponse : CatFileResponse := .found (ObjectId.replicate 1) .blob (ascii "a missing\n")

/-- The first chunk ends inside of the header. -/
def smallRequest : CatFileRequest where
  revision := ascii "HEAD:f"
  arrives := [(smallResponse.bytes (ascii "HEAD:f")).take 10, (smallResponse.bytes (ascii "HEAD:f")).drop 10]

end CatFileBatch

end GitBranchManager
