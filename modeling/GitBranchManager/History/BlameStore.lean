import GitBranchManager.Base.BufferedOutput
import GitBranchManager.Base.ObjectId
import GitBranchManager.Refs.RefCommands
import Mathlib.Data.List.ModifyLast

/-! # Blame

Each line of a file comes with its whole commit. A line of content starts with a tab, so nothing it
holds is taken for a header; a header that is not known is passed over.
-/

namespace GitBranchManager

open Library LineSplitter

structure BlameLine where
  commitOid : ObjectId := .null
  authorName : Bytes := []
  authorEmail : Bytes := []
  authorTime : Int64 := 0
  summary : Bytes := []
  finalLine : Int32 := 0
  originalLine : Int32 := 0
  content : Bytes := []
  boundary : Bool := false
  deriving DecidableEq

structure BlameResult where
  lines : List BlameLine := []
  truncated : Bool := false
  deriving DecidableEq

def isspace (b : UInt8) : Bool := b == space || (9 ≤ b && b ≤ 13)

/-- A number out of range is the nearest one in it. -/
def strtoll (text : Bytes) : Int64 :=
  let value : Int :=
    match text.dropWhile isspace with
    | 45 :: digits => -(Decimal.read digits : Int)
    | 43 :: digits => Decimal.read digits
    | digits => Decimal.read digits
  Int64.ofInt (max Int64.minValue.toInt (min Int64.maxValue.toInt value))

def atoi (text : Bytes) : Int32 := (strtoll text).toInt32

namespace BlameStore

def kMaxBytes : Nat := 16 * 1024 * 1024

def isxdigit (b : UInt8) : Bool := Decimal.isDigit b || (97 ≤ b && b ≤ 102) || (65 ≤ b && b ≤ 70)

def looksLikeObjectHex (token : Bytes) : Bool :=
  (token.length == 40 || token.length == 64) && token.all isxdigit

/-- `<oid> <original line> <final line>`, with the number of lines of the group behind some. -/
def readHeader (line : Bytes) : Option BlameLine :=
  match find [space] line with
  | none => none
  | some sp1 =>
    if looksLikeObjectHex (line.take sp1) then
      let commitOid := ObjectId.fromHex (line.take sp1)
      let rest := line.drop (sp1 + 1)
      match find [space] rest with
      | none => some { commitOid, originalLine := atoi rest }
      | some sp2 =>
        let final := rest.drop (sp2 + 1)
        let finalStr := match find [space] final with
          | none => final
          | some sp3 => final.take sp3
        some { commitOid, originalLine := atoi (rest.take sp2), finalLine := atoi finalStr }
    else none

def readKeyword (line : Bytes) (current : BlameLine) : BlameLine :=
  if startsWith line (ascii "author ") then { current with authorName := line.drop 7 }
  else if startsWith line (ascii "author-mail ") then
    let mail := line.drop 12
    let inBrackets := 2 ≤ mail.length && mail.head? == some 60 && mail.getLast? == some 62
    { current with authorEmail := if inBrackets then (mail.drop 1).take (mail.length - 2) else mail }
  else if startsWith line (ascii "author-time ") then { current with authorTime := strtoll (line.drop 12) }
  else if startsWith line (ascii "summary ") then { current with summary := line.drop 8 }
  else if line == ascii "boundary" then { current with boundary := true }
  else current

/-- What comes before the first line of the file is passed over. -/
def readLine (lines : List BlameLine) (line : Bytes) : List BlameLine :=
  if line.isEmpty then lines
  else if startsWith line [TAB] then lines.modifyLast fun current => { current with content := line.drop 1 }
  else match readHeader line with
    | some entry => lines ++ [entry]
    | none => lines.modifyLast (readKeyword line)

def command (path revision : Bytes) (startLine endLine : Int32) : GitCommand :=
  [ascii "blame", ascii "--line-porcelain"] ++
    (if 0 < startLine ∧ 0 < endLine then [ascii "-L", intToString startLine ++ ascii "," ++ intToString endLine]
      else []) ++
    (if revision.isEmpty then [] else [revision]) ++ [ascii "--", path]

def blame {ρ : Type} (git : ProcessRunner ρ) (s : ρ) (path revision : Bytes) (startLine endLine : Int32) :
    GitResult BlameResult × ρ :=
  if path.isEmpty then (.error { code := .invalidArgument, message := ascii "No file selected to blame" }, s)
  else match git s (command path revision startLine endLine) with
    | (.error e, s) => (.error e.toGitError, s)
    | (.ok out, s) =>
      (.ok { lines := ((out.take kMaxBytes).splitOn LF).foldl readLine [], truncated := kMaxBytes < out.length }, s)

end BlameStore

/-! ## What git prints -/

inductive BlameHeader
  | previous (oid : ObjectId) (path : Bytes)
  | boundary
  | filename (path : Bytes)
  deriving DecidableEq

def BlameHeader.line : BlameHeader → Bytes
  | .previous oid path => ascii "previous " ++ (oid.hex ++ space :: path)
  | .boundary => ascii "boundary"
  | .filename path => ascii "filename " ++ path

/-- A line of the file with what git knows of its commit; `times` and zones are as git prints them. -/
structure BlameEntry where
  oid : ObjectId
  originalLine : Nat
  finalLine : Nat
  groupLines : Option Nat := none
  authorName : Bytes
  authorMail : Bytes
  authorTime : Nat
  authorZone : Bytes := ascii "+0000"
  committerName : Bytes
  committerMail : Bytes
  committerTime : Nat
  committerZone : Bytes := ascii "+0000"
  summary : Bytes
  headers : List BlameHeader := []
  content : Bytes
  oidSome : oid.isNull = false
  fits : originalLine < 2 ^ 31 ∧ finalLine < 2 ^ 31 ∧ authorTime < 2 ^ 63
  plain : ∀ text ∈ [authorName, authorMail, authorZone, committerName, committerMail, committerZone, summary,
    content], LF ∉ text
  headersPlain : ∀ header ∈ headers, LF ∉ header.line

namespace BlameEntry

def firstLine (entry : BlameEntry) : Bytes :=
  entry.oid.hex ++ space :: (Decimal.numeral entry.originalLine ++ space :: (Decimal.numeral entry.finalLine ++
    match entry.groupLines with
    | none => []
    | some count => space :: Decimal.numeral count))

def lines (entry : BlameEntry) : List Bytes :=
  [entry.firstLine,
    ascii "author " ++ entry.authorName,
    ascii "author-mail " ++ (60 :: (entry.authorMail ++ [62])),
    ascii "author-time " ++ Decimal.numeral entry.authorTime,
    ascii "author-tz " ++ entry.authorZone,
    ascii "committer " ++ entry.committerName,
    ascii "committer-mail " ++ (60 :: (entry.committerMail ++ [62])),
    ascii "committer-time " ++ Decimal.numeral entry.committerTime,
    ascii "committer-tz " ++ entry.committerZone,
    ascii "summary " ++ entry.summary] ++
  entry.headers.map BlameHeader.line ++ [TAB :: entry.content]

/-- The line runner takes a carriage return before a line feed for a part of the line end. -/
def read (entry : BlameEntry) : BlameLine where
  commitOid := entry.oid
  authorName := trimmed LF entry.authorName
  authorEmail := entry.authorMail
  authorTime := Int64.ofInt entry.authorTime
  summary := trimmed LF entry.summary
  finalLine := Int32.ofInt entry.finalLine
  originalLine := Int32.ofInt entry.originalLine
  content := trimmed LF entry.content
  boundary := entry.headers.contains .boundary

end BlameEntry

def blameText (entries : List BlameEntry) : Bytes := Lines.join LF (entries.flatMap BlameEntry.lines)

/-! ## Reading it back -/

theorem strtoll_numeral {n : Nat} (hFits : n < 2 ^ 63) {rest : Bytes}
    (h : ∀ b ∈ rest.head?, Decimal.isDigit b = false) :
    strtoll (Decimal.numeral n ++ rest) = Int64.ofInt n := by
  have hBlank : ∀ b, Decimal.isDigit b = true → isspace b = false := by
    intro b hDigit
    rw [Decimal.isDigit, Bool.and_eq_true, decide_eq_true_eq, decide_eq_true_eq, UInt8.le_iff_toNat_le,
      UInt8.le_iff_toNat_le] at hDigit
    have hLow : 48 ≤ b.toNat := hDigit.1
    have hSpace : b ≠ space := by
      rintro rfl
      exact absurd hLow (by decide)
    have hHigh : ¬ b ≤ 13 := by
      rw [UInt8.le_iff_toNat_le]
      exact fun hLe => absurd (hLow.trans hLe) (by decide)
    simp [isspace, hSpace, hHigh]
  have hMax : min Int64.maxValue.toInt (n : Int) = n := by
    have hTop : Int64.maxValue.toInt = 2 ^ 63 - 1 := by decide
    omega
  have hMin : max Int64.minValue.toInt (n : Int) = n := by
    have hBottom : Int64.minValue.toInt ≤ 0 := by decide
    omega
  obtain ⟨b, digits, hNumeral, hDigit⟩ := Decimal.numeral_cons n
  have hRead := Decimal.read_numeral n h
  rw [strtoll, Decimal.dropWhile_numeral hBlank]
  rw [hNumeral, List.cons_append] at hRead ⊢
  have hValue : (match b :: (digits ++ rest) with
      | 45 :: digits => -(Decimal.read digits : Int)
      | 43 :: digits => Decimal.read digits
      | digits => Decimal.read digits) = (n : Int) := by
    split
    · next hSame =>
      rw [(List.cons.inj hSame).1] at hDigit
      cases hDigit
    · next hSame =>
      rw [(List.cons.inj hSame).1] at hDigit
      cases hDigit
    · rw [hRead]
  rw [hValue, hMax, hMin]

theorem atoi_numeral {n : Nat} (hFits : n < 2 ^ 31) {rest : Bytes}
    (h : ∀ b ∈ rest.head?, Decimal.isDigit b = false) : atoi (Decimal.numeral n ++ rest) = Int32.ofInt n := by
  rw [atoi, strtoll_numeral (hFits.trans (by decide)) h, Int64.toInt32_ofInt]

namespace BlameStore

theorem looksLikeObjectHex_hex {oid : ObjectId} (h : oid.isNull = false) : looksLikeObjectHex oid.hex = true := by
  have hDigits : ObjectId.kDigits.all isxdigit = true := by decide
  have hLength := oid.length_mem
  have hSome : oid.bytes.length ≠ 0 := by simpa [ObjectId.isNull] using h
  rw [looksLikeObjectHex, ObjectId.length_hex, Bool.and_eq_true, List.all_eq_true]
  constructor
  · simp only [List.mem_cons, List.not_mem_nil, or_false] at hLength
    rcases hLength with hZero | hLength | hLength
    · exact absurd hZero hSome
    · rw [hLength]; rfl
    · rw [hLength]; rfl
  · intro c hc
    exact List.all_eq_true.mp hDigits c (ObjectId.mem_kDigits_of_mem_hex hc)

theorem readHeader_keyword {key : Bytes} (hSpace : space ∉ key) (hHex : looksLikeObjectHex key = false)
    (text : Bytes) : readHeader (key ++ space :: text) = none := by
  rw [readHeader, find_byte hSpace]
  dsimp only
  rw [List.take_left, hHex, if_neg Bool.false_ne_true]

theorem readHeader_firstLine (entry : BlameEntry) : readHeader entry.firstLine = some
    { commitOid := entry.oid, originalLine := Int32.ofInt entry.originalLine
      finalLine := Int32.ofInt entry.finalLine } := by
  obtain ⟨hOriginal, hFinal, -⟩ := entry.fits
  have hHex : space ∉ entry.oid.hex := fun hMem => absurd (ObjectId.mem_kDigits_of_mem_hex hMem) (by decide)
  have hFirst : space ∉ Decimal.numeral entry.originalLine := Decimal.not_mem_numeral _ (by decide)
  have hSecond : space ∉ Decimal.numeral entry.finalLine := Decimal.not_mem_numeral _ (by decide)
  have hAtoi {n : Nat} (hFits : n < 2 ^ 31) : atoi (Decimal.numeral n) = Int32.ofInt n := by
    have hRead : atoi (Decimal.numeral n ++ []) = Int32.ofInt n := atoi_numeral hFits fun _ => nofun
    rwa [List.append_nil] at hRead
  rw [readHeader, BlameEntry.firstLine, find_byte hHex]
  dsimp only
  rw [List.take_left, looksLikeObjectHex_hex entry.oidSome, if_pos rfl, drop_field, find_byte hFirst,
    ObjectId.fromHex_hex entry.oidSome]
  dsimp only
  rw [List.take_left, drop_field, hAtoi hOriginal]
  cases entry.groupLines with
  | none =>
    dsimp only
    rw [List.append_nil, find_eq_none List.mem_cons_self hSecond]
    dsimp only
    rw [hAtoi hFinal]
  | some count =>
    dsimp only
    rw [find_byte hSecond]
    dsimp only
    rw [List.take_left, hAtoi hFinal]

theorem readLine_current {line : Bytes} (hSome : line.isEmpty = false) (hTab : startsWith line [TAB] = false)
    (hHeader : readHeader line = none) (front : List BlameLine) (current : BlameLine) :
    readLine (front ++ [current]) line = front ++ [readKeyword line current] := by
  rw [readLine, hSome, if_neg Bool.false_ne_true, hTab, if_neg Bool.false_ne_true, hHeader]
  exact List.modifyLast_concat _ _ _

theorem readLine_content (text : Bytes) (front : List BlameLine) (current : BlameLine) :
    readLine (front ++ [current]) (TAB :: text) = front ++ [{ current with content := text }] := by
  have hTab : startsWith (TAB :: text) [TAB] = true := by rw [startsWith_cons_cons]; simp
  rw [readLine, hTab, if_pos rfl]
  exact List.modifyLast_concat _ _ _

/-- A line of any other keyword says nothing of the commit. -/
theorem readKeyword_other {head : Bytes}
    (h : [ascii "author ", ascii "author-mail ", ascii "author-time ", ascii "summary ", ascii "boundary"].all
      (fun needle => !startsWith needle head && !startsWith head needle) = true)
    (text : Bytes) (current : BlameLine) : readKeyword (head ++ text) current = current := by
  have hApart (needle : Bytes) (hMem : needle ∈ [ascii "author ", ascii "author-mail ", ascii "author-time ",
      ascii "summary ", ascii "boundary"]) : startsWith (head ++ text) needle = false := by
    have hNeedle := List.all_eq_true.mp h needle hMem
    rw [Bool.and_eq_true, Bool.not_eq_true', Bool.not_eq_true'] at hNeedle
    exact startsWith_apart hNeedle.1 hNeedle.2 text
  have hBoundary : (head ++ text == ascii "boundary") = false := by
    have hNot := hApart (ascii "boundary") (by simp)
    refine beq_eq_false_iff_ne.mpr fun hSame => ?_
    rw [hSame, Bool.eq_false_iff] at hNot
    exact hNot (startsWith_iff.mpr (List.prefix_refl _))
  rw [readKeyword, hApart (ascii "author ") (by simp), hApart (ascii "author-mail ") (by simp),
    hApart (ascii "author-time ") (by simp), hApart (ascii "summary ") (by simp), hBoundary]
  rfl

theorem readKeyword_author (text : Bytes) (current : BlameLine) :
    readKeyword (ascii "author " ++ text) current = { current with authorName := text } := by
  have hLength : (ascii "author ").length = 7 := by decide
  rw [readKeyword, if_pos (startsWith_append _ _), List.drop_left' hLength]

theorem readKeyword_mail (mail : Bytes) (current : BlameLine) :
    readKeyword (ascii "author-mail " ++ (60 :: (mail ++ [62]))) current =
      { current with authorEmail := mail } := by
  have hAuthor : startsWith (ascii "author-mail " ++ (60 :: (mail ++ [62]))) (ascii "author ") = false :=
    startsWith_apart (by decide) (by decide) _
  have hLength : (ascii "author-mail ").length = 12 := by decide
  have hInside : ((60 :: (mail ++ [62])).drop 1).take ((60 :: (mail ++ [62])).length - 2) = mail := by
    rw [List.drop_one, List.tail_cons, List.length_cons, List.length_append, List.length_singleton]
    exact List.take_left
  have hBrackets : (decide (2 ≤ (60 :: (mail ++ [62])).length) && (60 :: (mail ++ [62])).head? == some 60 &&
      (60 :: (mail ++ [62])).getLast? == some 62) = true := by
    rw [← List.cons_append, List.getLast?_concat]
    simp
  rw [readKeyword, hAuthor, if_neg Bool.false_ne_true, if_pos (startsWith_append _ _), List.drop_left' hLength]
  dsimp only
  rw [hBrackets, if_pos rfl, hInside]

theorem readKeyword_time (text : Bytes) (current : BlameLine) :
    readKeyword (ascii "author-time " ++ text) current = { current with authorTime := strtoll text } := by
  have hAuthor : startsWith (ascii "author-time " ++ text) (ascii "author ") = false :=
    startsWith_apart (by decide) (by decide) text
  have hMail : startsWith (ascii "author-time " ++ text) (ascii "author-mail ") = false :=
    startsWith_apart (by decide) (by decide) text
  have hLength : (ascii "author-time ").length = 12 := by decide
  rw [readKeyword, hAuthor, if_neg Bool.false_ne_true, hMail, if_neg Bool.false_ne_true,
    if_pos (startsWith_append _ _), List.drop_left' hLength]

theorem readKeyword_summary (text : Bytes) (current : BlameLine) :
    readKeyword (ascii "summary " ++ text) current = { current with summary := text } := by
  have hAuthor : startsWith (ascii "summary " ++ text) (ascii "author ") = false :=
    startsWith_apart (by decide) (by decide) text
  have hMail : startsWith (ascii "summary " ++ text) (ascii "author-mail ") = false :=
    startsWith_apart (by decide) (by decide) text
  have hTime : startsWith (ascii "summary " ++ text) (ascii "author-time ") = false :=
    startsWith_apart (by decide) (by decide) text
  have hLength : (ascii "summary ").length = 8 := by decide
  rw [readKeyword, hAuthor, if_neg Bool.false_ne_true, hMail, if_neg Bool.false_ne_true, hTime,
    if_neg Bool.false_ne_true, if_pos (startsWith_append _ _), List.drop_left' hLength]

/-- A keyword with the blank behind it that is neither a header nor content. -/
def isKeyword (head : Bytes) : Bool :=
  head.getLast? == some space && !head.dropLast.contains space && !looksLikeObjectHex head.dropLast &&
    !startsWith [TAB] head && !startsWith head [TAB]

/-- The keyword in front decides what a line says of the current commit. -/
theorem readLine_keyword {head : Bytes} (h : isKeyword head = true) (text : Bytes) (front : List BlameLine)
    (current : BlameLine) :
    readLine (front ++ [current]) (trimmed LF (head ++ text)) =
      front ++ [readKeyword (head ++ trimmed LF text) current] := by
  simp only [isKeyword, Bool.and_eq_true, Bool.not_eq_true', beq_iff_eq] at h
  obtain ⟨⟨⟨⟨hLast, hSpace⟩, hHex⟩, hBefore⟩, hTab⟩ := h
  obtain ⟨key, rfl⟩ := List.getLast?_eq_some_iff.mp hLast
  rw [List.dropLast_concat] at hHex hSpace
  have hReturn : (key ++ [space]).getLast? ≠ some CR := by
    rw [hLast]
    decide
  have hNot : space ∉ key := by simpa using hSpace
  rw [trimmed_append hReturn]
  apply readLine_current
  · simp
  · exact startsWith_apart hBefore hTab _
  · rw [List.append_assoc, List.singleton_append]
    exact readHeader_keyword hNot hHex _

theorem foldl_headers (headers : List BlameHeader) (front : List BlameLine) (current : BlameLine) :
    (headers.map BlameHeader.line).foldl (fun lines line => readLine lines (trimmed LF line)) (front ++ [current]) =
      front ++ [{ current with boundary := current.boundary || headers.contains .boundary }] := by
  induction headers generalizing current with
  | nil => simp
  | cons header headers ih =>
    have hHeader : readLine (front ++ [current]) (trimmed LF header.line) =
        front ++ [{ current with boundary := current.boundary || header == .boundary }] := by
      cases header with
      | previous oid path =>
        have hOther : (BlameHeader.previous oid path == .boundary) = false := beq_eq_false_iff_ne.mpr nofun
        rw [hOther, Bool.or_false, BlameHeader.line, readLine_keyword (by decide),
          readKeyword_other (by decide)]
      | boundary =>
        have hSame : (BlameHeader.boundary == .boundary) = true := rfl
        rw [hSame, Bool.or_true]
        exact readLine_current rfl rfl rfl front current
      | filename path =>
        have hOther : (BlameHeader.filename path == .boundary) = false := beq_eq_false_iff_ne.mpr nofun
        rw [hOther, Bool.or_false, BlameHeader.line, readLine_keyword (by decide),
          readKeyword_other (by decide)]
    rw [List.map_cons, List.foldl_cons, hHeader, ih, List.contains_cons, Bool.or_assoc, Bool.beq_comm]

theorem not_mem_firstLine {b : UInt8} (hDigits : b ∉ ObjectId.kDigits) (hDigit : Decimal.isDigit b = false)
    (hSpace : b ≠ space) (entry : BlameEntry) : b ∉ entry.firstLine := by
  have hNumeral : ∀ n, b ∉ Decimal.numeral n := fun n => Decimal.not_mem_numeral n hDigit
  have hHex : b ∉ entry.oid.hex := fun hMem => hDigits (ObjectId.mem_kDigits_of_mem_hex hMem)
  rw [BlameEntry.firstLine]
  cases entry.groupLines <;> simp [hNumeral, hHex, hSpace]

/-- The lines of one entry add one line of the file, and change no other. -/
theorem foldl_entry (front : List BlameLine) (entry : BlameEntry) :
    entry.lines.foldl (fun lines line => readLine lines (trimmed LF line)) front = front ++ [entry.read] := by
  have hFirst : readLine front (trimmed LF entry.firstLine) = front ++ [
      { commitOid := entry.oid, originalLine := Int32.ofInt entry.originalLine
        finalLine := Int32.ofInt entry.finalLine }] := by
    have hHex : TAB ∉ entry.firstLine := not_mem_firstLine (by decide) (by decide) (by decide) entry
    have hReturn : CR ∉ entry.firstLine := not_mem_firstLine (by decide) (by decide) (by decide) entry
    have hSome : entry.firstLine.isEmpty = false := by simp [BlameEntry.firstLine]
    have hTab : startsWith entry.firstLine [TAB] = false := by
      rw [← Bool.not_eq_true, startsWith_iff]
      exact fun hPrefix => hHex (hPrefix.subset List.mem_cons_self)
    rw [trimmed_of_not_mem hReturn, readLine, hSome, if_neg Bool.false_ne_true, hTab, if_neg Bool.false_ne_true,
      readHeader_firstLine]
  have hAuthor (current : BlameLine) :
      readLine (front ++ [current]) (trimmed LF (ascii "author " ++ entry.authorName)) =
      front ++ [{ current with authorName := trimmed LF entry.authorName }] := by
    rw [readLine_keyword (by decide), readKeyword_author]
  have hMail (current : BlameLine) : readLine (front ++ [current])
      (trimmed LF (ascii "author-mail " ++ (60 :: (entry.authorMail ++ [62])))) =
      front ++ [{ current with authorEmail := entry.authorMail }] := by
    have hKept : trimmed LF (60 :: (entry.authorMail ++ [62])) = 60 :: (entry.authorMail ++ [62]) := by
      rw [← List.cons_append, trimmed, List.getLast?_concat, if_neg (by decide)]
    rw [readLine_keyword (by decide), hKept, readKeyword_mail]
  have hTime (current : BlameLine) : readLine (front ++ [current])
      (trimmed LF (ascii "author-time " ++ Decimal.numeral entry.authorTime)) =
      front ++ [{ current with authorTime := Int64.ofInt entry.authorTime }] := by
    have hRead : strtoll (Decimal.numeral entry.authorTime ++ []) = Int64.ofInt entry.authorTime :=
      strtoll_numeral entry.fits.2.2 fun _ hHead => absurd hHead (Option.not_mem_none _)
    rw [List.append_nil] at hRead
    rw [readLine_keyword (by decide), trimmed_of_not_mem (Decimal.not_mem_numeral _ (by decide)),
      readKeyword_time, hRead]
  have hSummary (current : BlameLine) : readLine (front ++ [current]) (trimmed LF (ascii "summary " ++ entry.summary)) =
      front ++ [{ current with summary := trimmed LF entry.summary }] := by
    rw [readLine_keyword (by decide), readKeyword_summary]
  have hOther {head : Bytes} (hHead : head ∈ [ascii "author-tz ", ascii "committer ", ascii "committer-mail ",
      ascii "committer-time ", ascii "committer-tz "]) (text : Bytes) (current : BlameLine) :
      readLine (front ++ [current]) (trimmed LF (head ++ text)) = front ++ [current] := by
    simp only [List.mem_cons, List.not_mem_nil, or_false] at hHead
    rcases hHead with rfl | rfl | rfl | rfl | rfl <;>
      rw [readLine_keyword (by decide), readKeyword_other (by decide)]
  have hContent (current : BlameLine) : readLine (front ++ [current]) (trimmed LF (TAB :: entry.content)) =
      front ++ [{ current with content := trimmed LF entry.content }] := by
    have hTrim : trimmed LF ([TAB] ++ entry.content) = [TAB] ++ trimmed LF entry.content :=
      trimmed_append (by decide) entry.content
    rw [List.singleton_append, List.singleton_append] at hTrim
    rw [hTrim, readLine_content]
  rw [BlameEntry.lines, List.foldl_append, List.foldl_append]
  simp only [List.foldl_cons, List.foldl_nil]
  rw [hFirst, hAuthor, hMail, hTime, hOther (by simp), hOther (by simp), hOther (by simp), hOther (by simp),
    hOther (by simp), hSummary, foldl_headers, hContent]
  rfl

theorem not_mem_lines (entry : BlameEntry) : ∀ line ∈ entry.lines, LF ∉ line := by
  have hPlain := entry.plain
  simp only [List.forall_mem_cons, List.not_mem_nil, false_imp_iff, implies_true, and_true] at hPlain
  obtain ⟨hName, hMail, hZone, hCommitter, hCommitterMail, hCommitterZone, hSummary, hContent⟩ := hPlain
  have hNumeral : ∀ n, LF ∉ Decimal.numeral n := fun n => Decimal.not_mem_numeral n (by decide)
  have hBrackets {mail : Bytes} (h : LF ∉ mail) : LF ∉ 60 :: (mail ++ [62]) := by
    rw [List.mem_cons, not_or]
    exact ⟨by decide, List.not_mem_append h (by decide)⟩
  have hTab : LF ∉ TAB :: entry.content := by
    rw [List.mem_cons, not_or]
    exact ⟨by decide, hContent⟩
  have hHeaders : ∀ line ∈ entry.headers.map BlameHeader.line, LF ∉ line := by
    rw [List.forall_mem_map]
    exact entry.headersPlain
  rw [BlameEntry.lines, List.forall_mem_append, List.forall_mem_append]
  refine ⟨⟨?_, hHeaders⟩, List.forall_mem_singleton.mpr hTab⟩
  simp only [List.forall_mem_cons, List.not_mem_nil, false_imp_iff, implies_true, and_true]
  exact ⟨not_mem_firstLine (by decide) (by decide) (by decide) entry, List.not_mem_append (by decide) hName,
    List.not_mem_append (by decide) (hBrackets hMail), List.not_mem_append (by decide) (hNumeral _),
    List.not_mem_append (by decide) hZone, List.not_mem_append (by decide) hCommitter,
    List.not_mem_append (by decide) (hBrackets hCommitterMail), List.not_mem_append (by decide) (hNumeral _),
    List.not_mem_append (by decide) hCommitterZone, List.not_mem_append (by decide) hSummary⟩

variable {ρ : Type}

/-- Blame gives each line of the file with its own commit; of what ends in a carriage return one is
lost with the line end. -/
theorem blame_lines {git : ProcessRunner ρ} {s s' : ρ} {path revision : Bytes} {startLine endLine : Int32}
    (hPath : path ≠ []) {entries : List BlameEntry} {chunks : List Bytes}
    (hChunks : chunks.flatten = blameText entries)
    (hRun : git s (command path revision startLine endLine) =
      (.ok (ProcessRunner.buffered (records LF chunks)), s'))
    (hFits : (ProcessRunner.buffered (records LF chunks)).length ≤ kMaxBytes) :
    blame git s path revision startLine endLine =
      (.ok { lines := entries.map BlameEntry.read, truncated := false }, s') := by
  have hRead : ((ProcessRunner.buffered (records LF chunks)).splitOn LF).foldl readLine [] =
      entries.map BlameEntry.read :=
    read_buffered (fun _ => rfl) (fun entry _ => not_mem_lines entry)
      (fun entry _ front => foldl_entry front entry) hChunks
  rw [blame, if_neg (fun hEmpty => hPath (List.isEmpty_iff.mp hEmpty)), hRun]
  dsimp only
  rw [List.take_of_length_le hFits, hRead, decide_eq_false (Nat.not_lt.mpr hFits)]

/-- A line of a file with `\r\n` line ends. -/
def crlfEntry : BlameEntry where
  oid := .replicate 2
  originalLine := 1
  finalLine := 2
  authorName := ascii "A"
  authorMail := ascii "a@b"
  authorTime := 3
  committerName := ascii "A"
  committerMail := ascii "a@b"
  committerTime := 3
  summary := ascii "s"
  content := ascii "a" ++ [CR]
  oidSome := rfl
  fits := by decide
  plain := by decide
  headersPlain := by simp

def crlfGit : ProcessRunner Unit := fun s _ =>
  (.ok (ProcessRunner.buffered (records LF [blameText [crlfEntry]])), s)

theorem blame_lines_crlf : blame crlfGit () (ascii "f") [] 0 0 =
    (.ok { lines := [crlfEntry.read], truncated := false }, ()) :=
  @blame_lines Unit crlfGit () () (ascii "f") [] 0 0 (by decide) [crlfEntry] _ (List.append_nil _) rfl
    (by decide +kernel)

theorem blame_drops_return : ¬ ∃ result, (blame crlfGit () (ascii "f") [] 0 0).1 = .ok result ∧
    result.lines.map BlameLine.content = [crlfEntry.content] := by
  rintro ⟨result, hResult, hLines⟩
  have hRead : (blame crlfGit () (ascii "f") [] 0 0).1.map (fun result => result.lines.map BlameLine.content) =
      .ok [ascii "a"] := by
    decide +kernel
  rw [hResult] at hRead
  exact absurd ((Except.ok.inj hRead).symm.trans hLines) (by decide)

end BlameStore

end GitBranchManager
